import Lzbench.Timing
import Lzbench.World

/-!
# Workspaces and handles

What a run takes it has to give back: the workspace that `init` returns, and the handles that
the wrappers of `libdeflate` and `xz` take for a call.  Two ways out forget something.  A
compressor found too slow in the measuring loop leaves `lzbench_test` with `return`, past
`deinit`, where the speed test before goes to `done`.  Of the wrappers,
`lzbench_libdeflate_decompress` never frees its decompressor, and both functions of `xz` return
before `lzma_end` when `lzma_code` does not come to the end of the stream.

Both libraries are a parameter.  A run keeps a ledger of its workspaces and of its calls, each
with what it did to handles.

## Main definitions

* `HandleEvent`, `Traced` — what a call does to handles.
* `Libdeflate`, `Lzma` — the libraries.
* `Wrapper`, `Wrapper.Fine` — the wrappers, and the calls that release what they take.
* `Ledger`, `ledgerDesc` — the world of a run that keeps a ledger.
* `givenBack_iff` — when a run gives everything back.
-/

namespace Lzbench

open Imperative

variable {σ : Type}

/-! ## Handles -/

/-- What is done to a handle. -/
inductive HandleEvent
  | take (handle : ℕ)
  | release (handle : ℕ)
  deriving DecidableEq

/-- The handles held after the events. -/
def heldAfter (held : List ℕ) : List HandleEvent → List ℕ
  | [] => held
  | .take h :: rest => heldAfter (h :: held) rest
  | .release h :: rest => heldAfter (held.erase h) rest

/-- Every handle taken is released. -/
def Released (events : List HandleEvent) : Prop := heldAfter [] events = []

instance (events : List HandleEvent) : Decidable (Released events) :=
  inferInstanceAs (Decidable (heldAfter [] events = []))

@[simp] theorem released_nil : Released [] := rfl

@[simp] theorem not_released_take (h : ℕ) : ¬ Released [.take h] := by
  simp [Released, heldAfter]

@[simp] theorem released_take_release (h : ℕ) : Released [.take h, .release h] := by
  simp [Released, heldAfter]

/-- The world in a call, and what the call has done to handles so far. -/
structure Traced (σ : Type) where
  world : σ
  events : List HandleEvent

namespace Traced

/-- A library function that returns a handle, or `NULL`. -/
def take (f : σ → Option ℕ × σ) (s : Traced σ) : Option ℕ × Traced σ :=
  ((f s.world).1, ⟨(f s.world).2, s.events ++ ((f s.world).1.map .take).toList⟩)

/-- A library function that works with the handles there are. -/
def use {α : Type} (f : σ → α × σ) (s : Traced σ) : α × Traced σ :=
  ((f s.world).1, ⟨(f s.world).2, s.events⟩)

/-- A library function that frees a handle. -/
def release (f : ℕ → σ → σ) (handle : ℕ) (s : Traced σ) : Traced σ :=
  ⟨f handle s.world, s.events ++ [.release handle]⟩

@[simp] theorem use_fst {α : Type} (f : σ → α × σ) (s : Traced σ) : (s.use f).1 = (f s.world).1 :=
  rfl

@[simp] theorem use_events {α : Type} (f : σ → α × σ) (s : Traced σ) :
    (s.use f).2.events = s.events := rfl

@[simp] theorem release_events (f : ℕ → σ → σ) (handle : ℕ) (s : Traced σ) :
    (s.release f handle).events = s.events ++ [.release handle] := rfl

end Traced

/-! ## The wrappers of `libdeflate` -/

/-- `LIBDEFLATE_SUCCESS`. -/
def libdeflateSuccess : ℤ := 0

/-- What `libdeflate_deflate_decompress` leaves; `actual` is `*actual_out_nbytes_ret`. -/
structure Inflated where
  ret : ℤ
  actual : ℕ
  out : Patch

/-- The functions of `libdeflate`; a handle is a pointer.  A coder is given the bytes to read
and the room to write. -/
structure Libdeflate (σ : Type) where
  allocCompressor : ℤ → σ → Option ℕ × σ
  deflateCompress : ℕ → List UInt8 → ℕ → σ → (ℕ × Patch) × σ
  freeCompressor : ℕ → σ → σ
  allocDecompressor : σ → Option ℕ × σ
  deflateDecompress : ℕ → List UInt8 → ℕ → σ → Inflated × σ

/-- `lzbench_libdeflate_compress`. -/
def lzbenchLibdeflateCompress (lib : Libdeflate σ) : CompressFunc (Traced σ) := fun a s =>
  let compressor := s.take (lib.allocCompressor (toInt32 a.param1))
  match compressor.1 with
  | none => ⟨0, a.outbuf, compressor.2⟩
  | some h =>
    let res := compressor.2.use (lib.deflateCompress h a.input a.outsize)
    ⟨toInt64 res.1.1, (res.1.2.shift a.outpos).onto a.outbuf, res.2.release lib.freeCompressor h⟩

/-- `lzbench_libdeflate_decompress`; the decompressor is not freed. -/
def lzbenchLibdeflateDecompress (lib : Libdeflate σ) : CompressFunc (Traced σ) := fun a s =>
  let decompressor := s.take lib.allocDecompressor
  match decompressor.1 with
  | none => ⟨0, a.outbuf, decompressor.2⟩
  | some h =>
    let res := decompressor.2.use (lib.deflateDecompress h a.input a.outsize)
    let out := (res.1.out.shift a.outpos).onto a.outbuf
    if res.1.ret ≠ libdeflateSuccess then ⟨0, out, res.2⟩
    else ⟨toInt64 res.1.actual, out, res.2⟩

/-! ## The wrappers of `xz` -/

/-- The codes of `lzma_ret` that are used here. -/
def lzmaOk : ℤ := 0
def lzmaStreamEnd : ℤ := 1
def lzmaMemError : ℤ := 5

/-- `LZMA_PRESET_LEVEL_MASK` and `LZMA_PRESET_EXTREME`. -/
def lzmaPresetLevelMask : UInt32 := 0x1F
def lzmaPresetExtreme : UInt32 := 0x80000000

/-- What `lzma_code` leaves; `written` is what it moved `next_out` by. -/
structure LzmaCoded where
  ret : ℤ
  written : ℕ
  out : Patch

/-- The functions of `liblzma`; the handle of a stream is its `internal`.  The encoder is given
the preset that its options are made from. -/
structure Lzma (σ : Type) where
  allocInternal : σ → Option ℕ × σ
  aloneEncoderInit : UInt32 → ℕ → σ → ℤ × σ
  aloneDecoderInit : ℕ → ℕ → σ → ℤ × σ
  code : ℕ → List UInt8 → ℕ → σ → LzmaCoded × σ
  lzmaEnd : ℕ → σ → σ

/-- `lzma_lzma_preset`, which tells whether the preset is not supported. -/
def lzmaLzmaPreset (preset : UInt32) : Bool :=
  let level := preset &&& lzmaPresetLevelMask
  let flags := preset &&& ~~~lzmaPresetLevelMask
  let supportedFlags := lzmaPresetExtreme
  level > 9 ∨ flags &&& ~~~supportedFlags ≠ 0

section Xz

variable (lib : Lzma σ)

/-- `lzma_next_strm_init` on a stream without `internal`: the handle, or an error. -/
def lzmaNextStrmInit (func : ℕ → σ → ℤ × σ) (strm : Traced σ) : Except ℤ ℕ × Traced σ :=
  let internal := strm.take lib.allocInternal
  match internal.1 with
  | none => (.error lzmaMemError, internal.2)
  | some h =>
    let ret := internal.2.use (func h)
    if ret.1 ≠ lzmaOk then (.error ret.1, ret.2.release lib.lzmaEnd h) else (.ok h, ret.2)

/-- `lzma_alone_encoder`, with the options of the preset. -/
def lzmaAloneEncoder (preset : UInt32) : Traced σ → Except ℤ ℕ × Traced σ :=
  lzmaNextStrmInit lib (lib.aloneEncoderInit preset)

/-- `lzma_alone_decoder`. -/
def lzmaAloneDecoder (memlimit : ℕ) : Traced σ → Except ℤ ℕ × Traced σ :=
  lzmaNextStrmInit lib (lib.aloneDecoderInit memlimit)

/-- What both functions do with the stream that they initialised. -/
def xzCode (a : CodecArgs) (coder : Except ℤ ℕ × Traced σ) : CodecResult (Traced σ) :=
  match coder.1 with
  | .error _ => ⟨0, a.outbuf, coder.2⟩
  | .ok h =>
    let strm := coder.2.use (lib.code h a.input a.outsize)
    let out := (strm.1.out.shift a.outpos).onto a.outbuf
    if strm.1.ret ≠ lzmaStreamEnd then ⟨0, out, strm.2⟩
    else ⟨toInt64 strm.1.written, out, strm.2.release lib.lzmaEnd h⟩

/-- The preset that `xz_alone_compress` takes from its level. -/
def xzPreset (a : CodecArgs) : UInt32 := UInt32.ofNat a.param1

/-- `xz_alone_compress`, to which `lzbench_xz_compress` passes its arguments. -/
def xzAloneCompress : CompressFunc (Traced σ) := fun a strm =>
  if lzmaLzmaPreset (xzPreset a) then ⟨0, a.outbuf, strm⟩
  else xzCode lib a (lzmaAloneEncoder lib (xzPreset a) strm)

/-- `xz_alone_decompress`, to which `lzbench_xz_decompress` passes its arguments. -/
def xzAloneDecompress : CompressFunc (Traced σ) := fun a strm =>
  xzCode lib a (lzmaAloneDecoder lib (2 ^ 64 - 1) strm)

end Xz

/-! ## The calls that release what they take -/

/-- The libraries. -/
structure Libraries (σ : Type) where
  libdeflate : Libdeflate σ
  lzma : Lzma σ

/-- A function of a descriptor; any other than these takes no handles. -/
inductive Wrapper (σ : Type)
  | libdeflateCompress
  | libdeflateDecompress
  | xzCompress
  | xzDecompress
  | other (c : CompressFunc σ)

namespace Wrapper

variable (libs : Libraries σ)

/-- The function itself. -/
def func : Wrapper σ → CompressFunc (Traced σ)
  | libdeflateCompress => lzbenchLibdeflateCompress libs.libdeflate
  | libdeflateDecompress => lzbenchLibdeflateDecompress libs.libdeflate
  | xzCompress => xzAloneCompress libs.lzma
  | xzDecompress => xzAloneDecompress libs.lzma
  | other c => fun a s =>
    let r := c a s.world
    ⟨r.ret, r.out, ⟨r.world, s.events⟩⟩

/-- A stream of `xz` that was initialised comes to its end. -/
def XzEnds (a : CodecArgs) (coder : Except ℤ ℕ × Traced σ) : Prop :=
  ∀ h, coder.1 = .ok h →
    (libs.lzma.code h a.input a.outsize coder.2.world).1.ret = lzmaStreamEnd

/-- The calls that release what they take: there is no decompressor to free, and what `xz`
codes comes to its end. -/
def Fine (a : CodecArgs) (w : σ) : Wrapper σ → Prop
  | libdeflateCompress => True
  | libdeflateDecompress => (libs.libdeflate.allocDecompressor w).1 = none
  | xzCompress => lzmaLzmaPreset (xzPreset a) = false →
      XzEnds libs a (lzmaAloneEncoder libs.lzma (xzPreset a) ⟨w, []⟩)
  | xzDecompress => XzEnds libs a (lzmaAloneDecoder libs.lzma (2 ^ 64 - 1) ⟨w, []⟩)
  | other _ => True

end Wrapper

/-- An initialisation takes the handle that it returns, or holds none. -/
theorem lzmaNextStrmInit_events (lib : Lzma σ) (func : ℕ → σ → ℤ × σ) (w : σ) :
    match (lzmaNextStrmInit lib func ⟨w, []⟩).1 with
    | .ok h => (lzmaNextStrmInit lib func ⟨w, []⟩).2.events = [.take h]
    | .error _ => Released (lzmaNextStrmInit lib func ⟨w, []⟩).2.events := by
  cases halloc : (lib.allocInternal w).1 with
  | none => simp [lzmaNextStrmInit, Traced.take, halloc]
  | some h =>
    by_cases hret : (func h (lib.allocInternal w).2).1 = lzmaOk
    · simp [lzmaNextStrmInit, Traced.take, halloc, hret]
    · simp [lzmaNextStrmInit, Traced.take, halloc, hret]

/-- The rest of a function of `xz` releases the handle where the stream comes to its end. -/
theorem released_xzCode (libs : Libraries σ) (a : CodecArgs) (func : ℕ → σ → ℤ × σ) (w : σ) :
    Released (xzCode libs.lzma a (lzmaNextStrmInit libs.lzma func ⟨w, []⟩)).world.events ↔
      Wrapper.XzEnds libs a (lzmaNextStrmInit libs.lzma func ⟨w, []⟩) := by
  have hevents := lzmaNextStrmInit_events libs.lzma func w
  generalize lzmaNextStrmInit libs.lzma func ⟨w, []⟩ = coder at hevents
  cases hcoder : coder.1 with
  | error e =>
    simp only [hcoder] at hevents
    simp [xzCode, Wrapper.XzEnds, hcoder, hevents]
  | ok h =>
    simp only [hcoder] at hevents
    by_cases hend : (libs.lzma.code h a.input a.outsize coder.2.world).1.ret = lzmaStreamEnd
    · simp [xzCode, Wrapper.XzEnds, hcoder, hevents, hend]
    · simp [xzCode, Wrapper.XzEnds, hcoder, hevents, hend]

/-- A call releases what it takes where it is fine. -/
theorem released_iff_fine (libs : Libraries σ) (wrapper : Wrapper σ) (a : CodecArgs) (w : σ) :
    Released (wrapper.func libs a ⟨w, []⟩).world.events ↔ wrapper.Fine libs a w := by
  cases wrapper with
  | libdeflateCompress =>
    cases halloc : (libs.libdeflate.allocCompressor (toInt32 a.param1) w).1 with
    | none => simp [Wrapper.func, Wrapper.Fine, lzbenchLibdeflateCompress, Traced.take, halloc]
    | some h => simp [Wrapper.func, Wrapper.Fine, lzbenchLibdeflateCompress, Traced.take, halloc]
  | libdeflateDecompress =>
    simp only [Wrapper.func, Wrapper.Fine, lzbenchLibdeflateDecompress]
    cases halloc : (libs.libdeflate.allocDecompressor w).1 with
    | none => simp [Traced.take, halloc]
    | some h =>
      -- both returns leave the decompressor behind
      simp only [Traced.take, halloc]
      split <;> simp
  | xzCompress =>
    by_cases hpreset : lzmaLzmaPreset (xzPreset a) = true
    · simp [Wrapper.func, Wrapper.Fine, xzAloneCompress, hpreset]
    · simp only [Wrapper.func, Wrapper.Fine, xzAloneCompress, hpreset, lzmaAloneEncoder]
      simpa using released_xzCode libs a _ w
  | xzDecompress => exact released_xzCode libs a _ w
  | other c => simp [Wrapper.func, Wrapper.Fine]

/-! ## The ledger of a run -/

/-- A call of a run, in the world it was made in, with what it did to handles. -/
structure Call (σ : Type) where
  wrapper : Wrapper σ
  args : CodecArgs
  world : σ
  events : List HandleEvent

/-- The world of a run.  The workspaces that `init` returned, those passed to `deinit`, and
the calls are history. -/
structure Ledger (σ : Type) where
  world : σ
  inits : List ℕ
  deinits : List ℕ
  calls : List (Call σ)

/-- Before a run. -/
def Ledger.start (w : σ) : Ledger σ := ⟨w, [], [], []⟩

/-- The clock, which leaves no trace. -/
def ledgerEnv (env : Env σ) : Env (Ledger σ) where
  getTime l := ((env.getTime l.world).1, { l with world := (env.getTime l.world).2 })
  uniSleep l := { l with world := env.uniSleep l.world }
  outOfRange := env.outOfRange

section Run

variable (libs : Libraries σ)

/-- A function of a descriptor. -/
def ledgerCall (wrapper : Wrapper σ) : CompressFunc (Ledger σ) := fun a l =>
  let r := wrapper.func libs a ⟨l.world, []⟩
  ⟨r.ret, r.out, { l with
    world := r.world.world
    calls := l.calls ++ [⟨wrapper, a, l.world, r.world.events⟩] }⟩

/-- A descriptor with the wrappers given for its two functions. -/
def ledgerDesc (desc : CompressorDesc σ) (compress decompress : Option (Wrapper σ)) :
    CompressorDesc (Ledger σ) where
  name := desc.name
  version := desc.version
  firstLevel := desc.firstLevel
  lastLevel := desc.lastLevel
  additionalParam := desc.additionalParam
  maxBlockSize := desc.maxBlockSize
  compress := compress.map (ledgerCall libs)
  decompress := decompress.map (ledgerCall libs)
  init := desc.init.map fun init n p q l =>
    let r := init n p q l.world
    (r.1, { l with world := r.2, inits := l.inits ++ [r.1] })
  deinit := desc.deinit.map fun deinit m l =>
    { l with world := deinit m l.world, deinits := l.deinits ++ [m] }

/-- The workspace that `init` returned was passed to `deinit` once, if there is one, and every
call has released the handles it took. -/
structure GivenBack (desc : CompressorDesc (Ledger σ)) (l : Ledger σ) : Prop where
  workmem : desc.deinit ≠ none → ∀ m ∈ l.inits, l.deinits.count m = 1
  handles : ∀ call ∈ l.calls, Released call.events

/-- The workspaces in the ledger, whose calls are those that the wrappers make. -/
structure Kept (inits deinits : List ℕ) (l : Ledger σ) : Prop where
  inits_eq : l.inits = inits
  deinits_eq : l.deinits = deinits
  events_eq : ∀ call ∈ l.calls,
    call.events = (call.wrapper.func libs call.args ⟨call.world, []⟩).world.events

variable {libs} {inits deinits : List ℕ}

theorem ledgerEnv_keeps (env : Env σ) : (ledgerEnv env).Keeps (Kept libs inits deinits) where
  getTime _ h := ⟨h.inits_eq, h.deinits_eq, h.events_eq⟩
  uniSleep _ h := ⟨h.inits_eq, h.deinits_eq, h.events_eq⟩

/-- A call adds itself to the ledger. -/
theorem ledgerCall_keeps (wrapper : Wrapper σ) :
    CodecKeeps (Kept libs inits deinits) (ledgerCall libs wrapper) := by
  intro a l h
  refine ⟨h.inits_eq, h.deinits_eq, ?_⟩
  intro call hcall
  cases List.mem_append.mp hcall with
  | inl hcall => exact h.events_eq call hcall
  | inr hcall =>
    rw [List.mem_singleton.mp hcall]

/-- The handles are released where every call is fine. -/
theorem Kept.released_iff {l : Ledger σ} (h : Kept libs inits deinits l) :
    (∀ call ∈ l.calls, Released call.events) ↔
      ∀ call ∈ l.calls, call.wrapper.Fine libs call.args call.world := by
  refine forall₂_congr fun call hcall => ?_
  rw [h.events_eq call hcall]
  exact released_iff_fine libs call.wrapper call.args call.world

variable {desc : CompressorDesc σ} {compress decompress : Option (Wrapper σ)}

theorem ledgerDesc_compress (c : CompressFunc (Ledger σ))
    (h : (ledgerDesc libs desc compress decompress).compress = some c) :
    CodecKeeps (Kept libs inits deinits) c := by
  obtain ⟨wrapper, -, rfl⟩ := Option.map_eq_some_iff.mp h
  exact ledgerCall_keeps wrapper

theorem ledgerDesc_decompress (c : CompressFunc (Ledger σ))
    (h : (ledgerDesc libs desc compress decompress).decompress = some c) :
    CodecKeeps (Kept libs inits deinits) c := by
  obtain ⟨wrapper, -, rfl⟩ := Option.map_eq_some_iff.mp h
  exact ledgerCall_keeps wrapper

theorem initWorkmem_ledger (n p q : ℕ) (w : σ) :
    Kept libs (if desc.init = none then [] else
        [(initWorkmem (ledgerDesc libs desc compress decompress) n p q (Ledger.start w)).1]) []
      (initWorkmem (ledgerDesc libs desc compress decompress) n p q (Ledger.start w)).2 := by
  cases hinit : desc.init with
  | none => constructor <;> simp [initWorkmem, ledgerDesc, hinit, Ledger.start]
  | some init => constructor <;> simp [initWorkmem, ledgerDesc, hinit, Ledger.start]

theorem deinitWorkmem_ledger (m : ℕ) {l : Ledger σ} (h : Kept libs inits [] l) :
    Kept libs inits (if desc.deinit = none then [] else [m])
      (deinitWorkmem (ledgerDesc libs desc compress decompress) m l) := by
  cases hdeinit : desc.deinit with
  | none => simpa [deinitWorkmem, ledgerDesc, hdeinit] using h
  | some deinit =>
    constructor
    · simp [deinitWorkmem, ledgerDesc, hdeinit, h.inits_eq]
    · simp [deinitWorkmem, ledgerDesc, hdeinit, h.deinits_eq]
    · simpa [deinitWorkmem, ledgerDesc, hdeinit] using h.events_eq

variable {env : Env σ} {params : LzbenchParams} {fileSizes : List ℕ} {level : ℤ} {inbuf : Mem}
  {insize : ℕ} {comprsize : UInt64} {param1 fuel : ℕ} {compbuf decomp : Mem} {w : σ}

/-- Everything is given back exactly where a workspace is not kept for being too slow, and every
call is fine. -/
theorem Kept.back_iff_fine {l : Ledger σ} {slow : Prop} {m : ℕ}
    (h : (slow ∧ Kept libs (if desc.init = none then [] else [m]) [] l) ∨
      ¬ slow ∧ Kept libs (if desc.init = none then [] else [m])
        (if desc.deinit = none then [] else [m]) l) :
    GivenBack (ledgerDesc libs desc compress decompress) l ↔
      (slow → desc.init = none ∨ desc.deinit = none) ∧
        ∀ call ∈ l.calls, call.wrapper.Fine libs call.args call.world := by
  have hdeinit : (ledgerDesc libs desc compress decompress).deinit ≠ none ↔ desc.deinit ≠ none := by
    simp [ledgerDesc]
  have hreleased : (∀ call ∈ l.calls, Released call.events) ↔
      ∀ call ∈ l.calls, call.wrapper.Fine libs call.args call.world :=
    h.elim (fun h => h.2.released_iff) fun h => h.2.released_iff
  have hworkmem : (desc.deinit ≠ none → ∀ k ∈ l.inits, l.deinits.count k = 1) ↔
      (slow → desc.init = none ∨ desc.deinit = none) := by
    rcases h with ⟨hslow, h⟩ | ⟨hfast, h⟩
    · by_cases hinit : desc.init = none
      · simp [h.inits_eq, hinit]
      · simp [h.inits_eq, h.deinits_eq, hinit, hslow]
    · by_cases hinit : desc.init = none
      · simp [h.inits_eq, hinit]
      · simp +contextual [h.inits_eq, h.deinits_eq, hinit, hfast]
  constructor
  · intro hback
    exact ⟨hworkmem.mp fun hne => hback.workmem (hdeinit.mpr hne), hreleased.mp hback.handles⟩
  · intro hfine
    exact ⟨fun hne => hworkmem.mpr hfine.1 (hdeinit.mp hne), hreleased.mpr hfine.2⟩

/-- A run gives everything back where the measuring loop does not find a compressor with a
workspace too slow, and every call is fine. -/
theorem givenBack_iff {res : TestResult (Ledger σ)}
    (h : lzbenchTest (ledgerEnv env) params fileSizes (ledgerDesc libs desc compress decompress)
      level inbuf insize comprsize param1 fuel compbuf decomp (Ledger.start w) = .ok res) :
    GivenBack (ledgerDesc libs desc compress decompress) res.world ↔
      (ReturnsTooSlow (ledgerEnv env) params fileSizes (ledgerDesc libs desc compress decompress)
        inbuf insize comprsize param1 fuel compbuf (Ledger.start w) →
          desc.init = none ∨ desc.deinit = none) ∧
      ∀ call ∈ res.world.calls, call.wrapper.Fine libs call.args call.world := by
  have hstart : Kept libs [] [] (Ledger.start w) := ⟨rfl, rfl, by simp [Ledger.start]⟩
  rcases (ends_lzbenchTest_world (ledgerEnv_keeps env) ledgerDesc_compress ledgerDesc_decompress
    (initWorkmem_ledger _ _ _ w)).ok res h with ⟨hmissing, hworld⟩ | ⟨l, hl, hend⟩
  · -- nothing was taken
    have hkept := hworld ▸ deinitWorkmem_ledger 0 hstart
    constructor
    · intro hback
      refine ⟨?_, hkept.released_iff.mp hback.handles⟩
      rintro ⟨c, d, -, -, hc, hd, -⟩
      rcases hmissing with hmissing | hmissing
      · rw [hmissing] at hc
        cases hc
      · rw [hmissing] at hd
        cases hd
    · intro hfine
      exact ⟨fun _ => by simp [hkept.inits_eq], hkept.released_iff.mpr hfine.2⟩
  · apply Kept.back_iff_fine
    rcases hend with ⟨hslow, hworld⟩ | ⟨hfast, hworld⟩
    · exact Or.inl ⟨hslow, hworld ▸ hl⟩
    · exact Or.inr ⟨hfast, hworld ▸ deinitWorkmem_ledger _ hl⟩

end Run

/-! ## Runs that give everything back, and runs that do not -/

/-- Libraries that code runs of one byte, in three seconds a call; `lzma_code` decodes and
returns `ret`. -/
def runLibs (ret : ℤ) : Libraries ℕ where
  libdeflate :=
    { allocCompressor _ w := (some 1, w)
      deflateCompress _ input room w :=
        (((runCompress input room 0 0).1.toNat, (runCompress input room 0 0).2), w + 3000000000)
      freeCompressor _ w := w
      allocDecompressor w := (some 2, w)
      deflateDecompress _ input room w :=
        (⟨libdeflateSuccess, (runDecompress input room 0 0).1.toNat,
          (runDecompress input room 0 0).2⟩, w + 3000000000) }
  lzma :=
    { allocInternal w := (some 3, w)
      aloneEncoderInit _ _ w := (lzmaOk, w)
      aloneDecoderInit _ _ w := (lzmaOk, w)
      code _ input room w :=
        (⟨ret, (runDecompress input room 0 0).1.toNat, (runDecompress input room 0 0).2⟩,
          w + 3000000000)
      lzmaEnd _ w := w }

/-- A descriptor with a workspace. -/
def workmemDesc : CompressorDesc ℕ :=
  { warmingDesc with
    init := some fun _ _ _ w => (1, w)
    deinit := some fun _ w => w }

/-- The descriptor with two wrappers. -/
def handleDesc (ret : ℤ) (compress decompress : Wrapper ℕ) : CompressorDesc (Ledger ℕ) :=
  ledgerDesc (runLibs ret) workmemDesc (some compress) (some decompress)

/-- A run on three equal bytes. -/
def handleRun (cspeed : ℕ) (desc : CompressorDesc (Ledger ℕ)) :
    Except Fault (TestResult (Ledger ℕ)) :=
  lzbenchTest (ledgerEnv shownEnv) { defaultParams with cspeed := cspeed } [3] desc 0
    (Mem.ofList [7, 7, 7]) 3 20000 0 2 (Mem.ofList []) (Mem.ofList []) (Ledger.start 0)

/-- One call of each wrapper, and the workspace. -/
theorem givenBack_handleRun :
    ∃ res, handleRun 0 (handleDesc lzmaStreamEnd .libdeflateCompress .xzDecompress) = .ok res ∧
      GivenBack (handleDesc lzmaStreamEnd .libdeflateCompress .xzDecompress) res.world := by
  have hrun : ∃ res,
      handleRun 0 (handleDesc lzmaStreamEnd .libdeflateCompress .xzDecompress) = .ok res ∧
        res.world.calls.map Call.wrapper = [.libdeflateCompress, .xzDecompress] := ⟨_, rfl, rfl⟩
  obtain ⟨res, hrun, hcalls⟩ := hrun
  refine ⟨res, hrun, (givenBack_iff hrun).mpr ⟨?_, ?_⟩⟩
  · rintro ⟨c, d, chunkSizes, s, -, -, -, -, hslow⟩
    exact absurd (compressPhase_tooSlow hslow) (by decide)
  · intro call hcall
    have hwrapper := List.mem_map_of_mem (f := Call.wrapper) hcall
    rw [hcalls] at hwrapper
    rcases List.mem_pair.mp hwrapper with hwrapper | hwrapper
    · rw [hwrapper]
      trivial
    · rw [hwrapper]
      exact fun _ _ => rfl

/-- A compressor that is slow from its second call on. -/
def tiringCompress : CompressFunc ℕ := fun a w =>
  { runCompress.call a w with world := if w = 0 then 5000 else w + 2000000000 }

/-- Handles that are not released leave something behind. -/
theorem not_givenBack_of_events {desc : CompressorDesc (Ledger σ)} {l : Ledger σ}
    {events : List HandleEvent} (hmem : events ∈ l.calls.map Call.events)
    (hevents : ¬ Released events) : ¬ GivenBack desc l := by
  intro hback
  obtain ⟨call, hcall, rfl⟩ := List.mem_map.mp hmem
  exact hevents (hback.handles call hcall)

/-- A decompressor that is never freed, a stream whose end is not come to, and a compressor
that is too slow in the measuring loop only. -/
theorem not_givenBack :
    (∃ res, handleRun 0 (handleDesc lzmaStreamEnd .libdeflateCompress .libdeflateDecompress) =
        .ok res ∧
      ¬ GivenBack (handleDesc lzmaStreamEnd .libdeflateCompress .libdeflateDecompress)
        res.world) ∧
    (∃ res, handleRun 0 (handleDesc lzmaOk .libdeflateCompress .xzDecompress) = .ok res ∧
      ¬ GivenBack (handleDesc lzmaOk .libdeflateCompress .xzDecompress) res.world) ∧
    ∃ res, handleRun 1000 (handleDesc lzmaStreamEnd (.other tiringCompress) .xzDecompress) =
        .ok res ∧
      ¬ GivenBack (handleDesc lzmaStreamEnd (.other tiringCompress) .xzDecompress) res.world := by
  have hlibdeflate : ∃ res,
      handleRun 0 (handleDesc lzmaStreamEnd .libdeflateCompress .libdeflateDecompress) = .ok res ∧
        res.world.calls.map Call.events = [[.take 1, .release 1], [.take 2]] := ⟨_, rfl, rfl⟩
  have hxz : ∃ res, handleRun 0 (handleDesc lzmaOk .libdeflateCompress .xzDecompress) = .ok res ∧
      res.world.calls.map Call.events = [[.take 1, .release 1], [.take 3]] := ⟨_, rfl, rfl⟩
  have hslow : (handleRun 1000 (handleDesc lzmaStreamEnd (.other tiringCompress)
      .xzDecompress)).toOption.map (fun res => (res.world.inits, res.world.deinits)) =
        some ([1], []) := by decide +kernel
  obtain ⟨res, hrun, hevents⟩ := hlibdeflate
  refine ⟨⟨res, hrun, not_givenBack_of_events (hevents ▸ by simp) (not_released_take 2)⟩, ?_⟩
  obtain ⟨res, hrun, hevents⟩ := hxz
  refine ⟨⟨res, hrun, not_givenBack_of_events (hevents ▸ by simp) (not_released_take 3)⟩, ?_⟩
  cases hrun : handleRun 1000 (handleDesc lzmaStreamEnd (.other tiringCompress) .xzDecompress) with
  | error e =>
    rw [hrun] at hslow
    cases hslow
  | ok res =>
    rw [hrun] at hslow
    have hworkmem := Prod.mk.inj (Option.some.inj hslow)
    refine ⟨res, rfl, fun hback => ?_⟩
    have hcount := hback.workmem nofun 1 (by simp [hworkmem.1])
    rw [hworkmem.2] at hcount
    cases hcount

end Lzbench
