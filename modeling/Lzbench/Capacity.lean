import Lzbench.Compress
import Lzbench.Chunks
import Mathlib.Algebra.Order.BigOperators.Group.List

/-!
# Is the output buffer large enough?

The buffer is sized once, by the bound of the whole input, and consumed chunk by
chunk.  A codec that does not expand leaves every later chunk its full bound: the
room left is at least the bound of the input left, floors and all.

A codec that may expand uses up the slack, which one bound grants once and every
chunk may spend anew.  `maxStored` is what one chunk can cost, and the buffer
suffices for every codec of that growth exactly when these costs fit.

## Main definitions

* `Shrinks` — the loop invariant under a codec that does not expand.
* `maxStored`, `Fits` — the worst case of a chunk, and of every prefix of a list.
* `greedy` — the codec that spends the worst case.
-/

namespace Lzbench

open Imperative

variable {σ : Type}

/-! ## Codecs that do not expand -/

/-- The invariant of the loop when no chunk is stored in more bytes than it has;
`total` is the size of the whole list. -/
structure Shrinks (cap total : ℕ) (done : List ℕ) (s : CompressState σ) : Prop
    extends Accounts cap done s where
  sum_le : s.sizes.sum ≤ done.sum
  rooms : List.Forall₂ (fun (call : CompressCall) k => k ≤ call.room) s.calls s.sizes
  unclipped : getCompressBound total ≤ cap →
    ∀ call ∈ s.calls, call.outpart = getCompressBound call.part

section Shrinks

variable {compress : CompressFunc σ} (inbuf : Mem) {param1 param2 workmem : ℕ}
  {cap total : ℕ}

/-- The call on the next chunk gets the full bound when the room left covers the
bound of the input left. -/
theorem outpart_eq_bound {s : CompressState σ} {done : List ℕ} {part : ℕ}
    (h : Shrinks cap total done s) (hfits : BoundFits total) (htotal : done.sum + part ≤ total)
    (hcap : getCompressBound total ≤ cap) : outpart s part = getCompressBound part := by
  have hbound := getCompressBound_add_le hfits htotal
  have hroom : s.outsize + s.sizes.sum = cap := h.room_eq
  have hsum : s.sizes.sum ≤ done.sum := h.sum_le
  exact Nat.min_eq_left (by omega)

/-- Storing a chunk in at most its own size keeps the invariant. -/
theorem Shrinks.store {s : CompressState σ} {done : List ℕ} {part clen : ℕ}
    {r : CodecResult σ} (h : Shrinks cap total done s) (hcap : cap < 2 ^ 64)
    (hfits : BoundFits total) (htotal : done.sum + part ≤ total)
    (hle : clen ≤ part) (hroom : part ≤ s.outsize) {s' : CompressState σ}
    (hs' : s' = s.called part (outpart s part) r ∨
      s' = (s.called part (outpart s part) r).copyRaw inbuf part) :
    Shrinks cap total (done ++ [part]) (s'.store part clen) := by
  have hcall : s'.calls = s.calls ++ [⟨part, s.outsize, outpart s part, r.ret⟩] := by
    rcases hs' with rfl | rfl <;> rfl
  have hsizes : s'.sizes = s.sizes := by rcases hs' with rfl | rfl <;> rfl
  have hout : s'.outsize = s.outsize := by rcases hs' with rfl | rfl <;> rfl
  have hacc : Accounts cap done s' := by
    rcases hs' with rfl | rfl
    · exact h.toAccounts.called _ _ _
    · exact (h.toAccounts.called _ _ _).copyRaw _ _
  refine ⟨hacc.store hcap (by omega), ?_, ?_, ?_⟩
  · simp only [CompressState.store, hsizes, List.sum_append, List.sum_singleton]
    have := h.sum_le
    omega
  · simp only [CompressState.store, hcall, hsizes]
    exact List.rel_append (R := _) h.rooms (by simpa using hle.trans hroom)
  · intro hbound call hmem
    simp only [CompressState.store, hcall, List.mem_append, List.mem_singleton] at hmem
    rcases hmem with hmem | rfl
    · exact h.unclipped hbound call hmem
    · exact outpart_eq_bound h hfits htotal hbound

/-- One chunk under a codec that does not expand: it is stored. -/
theorem shrinks_step (hc : NeverExpands compress) {s : CompressState σ} {done : List ℕ}
    {part : ℕ} (h : Shrinks cap total done s) (hcap : cap < 2 ^ 64) (hfits : BoundFits total)
    (htotal : done.sum + part ≤ total) (hroom : total ≤ cap) :
    Ends (Shrinks cap total (done ++ [part])) (fun _ => False)
      (compressStep compress inbuf param1 param2 workmem s part) := by
  have hpart : part ≤ s.outsize := by
    have hcap' : s.outsize + s.sizes.sum = cap := h.room_eq
    have hsum : s.sizes.sum ≤ done.sum := h.sum_le
    omega
  refine ends_compressStep _ _ _ _ _ rfl ?raw ?coded ?abort
  case raw =>
    intro _ _
    exact h.store inbuf hcap hfits htotal le_rfl hpart (Or.inr rfl)
  case coded =>
    intro hpos _
    have hle := hc (compressArgs inbuf param1 param2 workmem s part) s.world
    have hclen := toSize_clen part (by have := hfits.lt; omega) hpos hle
    exact h.store inbuf hcap hfits htotal hclen.2 hpart (Or.inl rfl)
  case abort =>
    intro _ hlt
    omega

/-- The whole loop under a codec that does not expand: every chunk is stored. -/
theorem shrinks_run (hc : NeverExpands compress) (chunks : List ℕ)
    (htotal : chunks.sum ≤ total) (hfits : BoundFits total) (outbuf : Mem) (outsize : UInt64)
    (hroom : total ≤ outsize.toNat) (w : σ) :
    Ends (Shrinks outsize.toNat total chunks) (fun _ => False)
      (chunks.foldlM (compressStep compress inbuf param1 param2 workmem)
        (compressInit outbuf outsize w)) := by
  refine ends_foldlM (Shrinks outsize.toNat total) chunks
    ⟨Accounts.init outbuf outsize w, ?_, ?_, ?_⟩ ?_
  · simp [compressInit]
  · simp [compressInit]
  · simp [compressInit]
  · intro done part rest s hxs h
    have hsum : chunks.sum = done.sum + (part + rest.sum) := by
      rw [hxs, List.sum_append, List.sum_cons]
    exact shrinks_step inbuf hc h outsize.toNat_lt hfits (by omega) hroom

/-- What the call returns under a codec that does not expand. -/
theorem ends_lzbenchCompress_shrinks (hc : NeverExpands compress)
    {chunkSizes : List ℕ} (comprSizes : List ℕ) (hfits : BoundFits chunkSizes.sum)
    (outbuf : Mem) {outsize : UInt64} (hroom : chunkSizes.sum ≤ outsize.toNat) (w : σ) :
    Ends (fun r => r.aborted = false ∧ r.ret = toInt64 r.comprSizes.sum ∧
        r.comprSizes.sum ≤ chunkSizes.sum ∧
        List.Forall₂ (fun (call : CompressCall) k => k ≤ call.room) r.calls r.comprSizes ∧
        (getCompressBound chunkSizes.sum ≤ outsize.toNat →
          ∀ call ∈ r.calls, call.outpart = getCompressBound call.part))
      (fun e => e = Stop.lengthError ∧ chunkCount chunkSizes.length < 0)
      (lzbenchCompress compress inbuf param1 param2 workmem chunkSizes comprSizes outbuf
        outsize w) := by
  have htake : (chunkSizes.take (chunkCount chunkSizes.length).toNat).sum ≤ chunkSizes.sum :=
    (List.take_sublist _ _).sum_le_sum fun _ _ => Nat.zero_le _
  refine ends_lzbenchCompress _ _ _ _ _ _
    (shrinks_run inbuf hc _ htake hfits outbuf outsize hroom w) (fun s hs => ?_)
    (fun _ h => h.elim)
  have hlen : s.sizes.length = (chunkCount chunkSizes.length).toNat := by
    rw [hs.length_eq, List.length_take, Nat.min_eq_left (chunkCount_le _)]
  simp only [compressResult, stored_append_drop hlen, hs.sum_eq]
  exact ⟨trivial, trivial, hs.sum_le.trans htake, hs.rooms, hs.unclipped⟩

/-- Full head-room for codecs that do not expand: every call gets the unclipped bound
of its chunk, every chunk is stored, the stored sizes are what is returned and none
of them underflows the room left.  Room for exactly the input stores the chunks too. -/
theorem compress_fullHeadroom (hc : NeverExpands compress) (chunkSizes comprSizes : List ℕ)
    (hfits : BoundFits chunkSizes.sum) (outbuf : Mem) (outsize : UInt64) (w : σ) :
    (chunkSizes.length < 2 ^ 31 →
      ∃ r, lzbenchCompress compress inbuf param1 param2 workmem chunkSizes comprSizes outbuf
        outsize w = .ok r) ∧
    ∀ r, lzbenchCompress compress inbuf param1 param2 workmem chunkSizes comprSizes outbuf
        outsize w = .ok r →
      (getCompressBound chunkSizes.sum ≤ outsize.toNat →
        (∀ call ∈ r.calls, call.outpart = getCompressBound call.part) ∧ r.aborted = false ∧
        toSize r.ret = r.comprSizes.sum ∧
        (chunkSizes.sum ≤ ptrdiffMax → r.ret = r.comprSizes.sum) ∧
        r.comprSizes.sum ≤ chunkSizes.sum ∧
        List.Forall₂ (fun (call : CompressCall) k => k ≤ call.room) r.calls r.comprSizes) ∧
      (outsize.toNat = chunkSizes.sum → r.aborted = false) := by
  refine ⟨fun hlen => lzbenchCompress_returns _ _ _ _ _ hlen _ _ _ _, fun r hr => ⟨?_, ?_⟩⟩
  · intro hbound
    have hroom : chunkSizes.sum ≤ outsize.toNat := by
      have hle := le_getCompressBound hfits
      omega
    obtain ⟨hab, hret, hsum, hrooms, hout⟩ :=
      (ends_lzbenchCompress_shrinks inbuf hc comprSizes hfits outbuf hroom w).ok r hr
    refine ⟨hout hbound, hab, ?_, fun hobj => ?_, hsum, hrooms⟩
    · rw [hret, toSize_toInt64 (lt_of_le_of_lt hsum hfits.lt)]
    · rw [hret, toInt64_ofNat (hsum.trans hobj)]
  · intro hroom
    exact ((ends_lzbenchCompress_shrinks inbuf hc comprSizes hfits outbuf hroom.ge w).ok r hr).1

end Shrinks

/-- Three chunks of six bytes, of which two are runs, in the buffer that
`lzbench_main` allocates for six bytes. -/
theorem compress_fullHeadroom_run :
    ∃ r, lzbenchCompress (runCompress.call : CompressFunc Unit)
        (Mem.ofList [7, 7, 1, 2, 3, 9]) 0 0 0 [2, 3, 1] [] (Mem.ofList []) 16391 () = .ok r ∧
      r.aborted = false ∧ r.ret = r.comprSizes.sum := by
  have hc : NeverExpands (runCompress.call : CompressFunc Unit) := by
    intro a _
    have hlen : a.input.length = a.insize := Mem.length_bytes _ _ _
    simp only [CodeFn.call]
    cases heq : a.input with
    | nil => simp [runCompress]
    | cons b rest =>
      rw [heq, List.length_cons] at hlen
      by_cases hrun : rest.all (· == b) ∧ 1 ≤ a.outsize
      · simp only [runCompress, if_pos hrun]
        omega
      · simp only [runCompress, if_neg hrun]
        omega
  obtain ⟨hret, hall⟩ := compress_fullHeadroom (Mem.ofList [7, 7, 1, 2, 3, 9]) hc [2, 3, 1] []
    (by decide) (Mem.ofList []) 16391 ()
  obtain ⟨r, hr⟩ := hret (by decide)
  obtain ⟨_, hab, _, hsum, _⟩ := (hall r hr).1 (by decide)
  exact ⟨r, hr, hab, hsum (by decide)⟩

/-! ## Codecs that may expand -/

/-- The compressor returns at most its output size, and at most `grow` of its chunk
size.  With `getCompressBound` for `grow` the second bound says nothing new. -/
def GrowsBy (grow : ℕ → ℕ) (compress : CompressFunc σ) : Prop :=
  ∀ a w, (compress a w).ret ≤ a.outsize ∧ (compress a w).ret ≤ grow a.insize

/-- The most that one chunk can take from the room left. -/
def maxStored (grow : ℕ → ℕ) (part : ℕ) : ℕ := max part (min (grow part) (getCompressBound part))

/-- Every chunk still fits raw when all chunks before it took the most they can. -/
def Fits (grow : ℕ → ℕ) (cap : ℕ) (chunks : List ℕ) : Prop :=
  ∀ done part rest, chunks = done ++ part :: rest →
    (done.map (maxStored grow)).sum + part ≤ cap

/-- The codec that takes as much as it is allowed, and fails where that would not
expand the chunk. -/
def greedy (grow : ℕ → ℕ) : CompressFunc σ := fun a w =>
  let k := min (grow a.insize) a.outsize
  ⟨if k > a.insize then k else 0, a.outbuf, w⟩

theorem growsBy_greedy (grow : ℕ → ℕ) : GrowsBy grow (greedy grow : CompressFunc σ) := by
  intro a w
  simp only [greedy]
  split <;> omega

section Grows

variable {grow : ℕ → ℕ} {cap : ℕ} {inbuf : Mem} {param1 param2 workmem : ℕ}

/-- One chunk of a list that fits: it is stored, in at most its worst case. -/
theorem grows_step {compress : CompressFunc σ} (hc : GrowsBy grow compress) (hcap : cap < 2 ^ 64)
    {s : CompressState σ} {done : List ℕ} {part : ℕ}
    (h : Accounts cap done s ∧ s.sizes.sum ≤ (done.map (maxStored grow)).sum)
    (hfit : (done.map (maxStored grow)).sum + part ≤ cap) :
    Ends (fun s' => Accounts cap (done ++ [part]) s' ∧
        s'.sizes.sum ≤ ((done ++ [part]).map (maxStored grow)).sum) (fun _ => False)
      (compressStep compress inbuf param1 param2 workmem s part) := by
  obtain ⟨hacc, hsum⟩ := h
  have hroom : s.outsize + s.sizes.sum = cap := hacc.room_eq
  have hmax : part ≤ maxStored grow part := Nat.le_max_left _ _
  have hpart : part ≤ s.outsize := by omega
  refine ends_compressStep _ _ _ _ _ rfl ?raw ?coded ?abort
  case raw =>
    intro _ _
    refine ⟨((hacc.called _ _ _).copyRaw _ _).store hcap hpart, ?_⟩
    simp only [CompressState.store, CompressState.copyRaw, CompressState.called, List.sum_append,
      List.sum_singleton, List.map_append, List.map_singleton]
    omega
  case coded =>
    intro hpos _
    obtain ⟨hout, hgrow⟩ := hc (compressArgs inbuf param1 param2 workmem s part) s.world
    have houtpart : (compressArgs inbuf param1 param2 workmem s part).outsize =
        min (getCompressBound part) s.outsize := rfl
    change _ ≤ ((grow part : ℕ) : ℤ) at hgrow
    have hclen := toSize_clen s.outsize (by omega) hpos (by omega)
    refine ⟨(hacc.called _ _ _).store hcap hclen.2, ?_⟩
    simp only [CompressState.store, CompressState.called, List.sum_append,
      List.sum_singleton, List.map_append, List.map_singleton, maxStored] at hmax ⊢
    omega
  case abort =>
    intro _ hlt
    omega

/-- One chunk under the greedy codec: unless the loop is left, the chunk fitted, and
the room left is the worst case. -/
theorem greedy_step (hcap : cap < 2 ^ 64) {s : CompressState σ} {done : List ℕ} {part : ℕ}
    (hpos : 0 < part) (hroom : s.outsize = cap - (done.map (maxStored grow)).sum)
    (hfit : Fits grow cap done) :
    Ends (fun s' => s'.outsize = cap - ((done ++ [part]).map (maxStored grow)).sum ∧
        Fits grow cap (done ++ [part])) (fun _ => True)
      (compressStep (greedy grow) inbuf param1 param2 workmem s part) := by
  have hargs : (compressArgs inbuf param1 param2 workmem s part).outsize =
      min (getCompressBound part) s.outsize := rfl
  have hinsize : (compressArgs inbuf param1 param2 workmem s part).insize = part := rfl
  have hstored : ∀ k, part ≤ s.outsize → k = min (maxStored grow part) s.outsize →
      subSize s.outsize k = cap - ((done ++ [part]).map (maxStored grow)).sum ∧
        Fits grow cap (done ++ [part]) := by
    intro k hle hk
    rw [subSize_of_le (by omega) (by omega), List.map_append, List.sum_append,
      List.map_singleton, List.sum_singleton]
    refine ⟨by omega, ?_⟩
    intro d p r hd
    rcases List.eq_nil_or_concat r with rfl | ⟨r', x, rfl⟩
    · obtain ⟨rfl, hp⟩ := List.append_inj' hd rfl
      obtain rfl : part = p := by simpa using hp
      omega
    · rw [List.concat_eq_append, ← List.cons_append, ← List.append_assoc] at hd
      exact hfit d p r' (List.append_inj' hd rfl).1
  refine ends_compressStep _ _ _ _ _ rfl ?raw ?coded ?abort
  case raw =>
    intro hret hle
    refine hstored part hle ?_
    simp only [greedy, hargs, hinsize] at hret
    simp only [maxStored]
    by_cases hk : min (grow part) (min (getCompressBound part) s.outsize) > part
    · rw [if_pos hk, toSize_ofNat (by omega)] at hret
      omega
    · omega
  case coded =>
    intro hret _
    simp only [greedy, hargs, hinsize] at hret
    by_cases hk : min (grow part) (min (getCompressBound part) s.outsize) > part
    · refine hstored _ (by omega) ?_
      simp only [greedy, hargs, hinsize, if_pos hk, maxStored]
      rw [toSize_ofNat (by omega)]
      omega
    · rw [if_neg hk] at hret
      omega
  case abort =>
    intro _ _
    trivial

/-- The whole loop on a list that fits. -/
theorem grows_run {compress : CompressFunc σ} (hc : GrowsBy grow compress) {chunks : List ℕ}
    {outsize : UInt64} (hfit : Fits grow outsize.toNat chunks) (outbuf : Mem) (w : σ) :
    Ends (fun s => s.sizes.length = chunks.length) (fun _ => False)
      (chunks.foldlM (compressStep compress inbuf param1 param2 workmem)
        (compressInit outbuf outsize w)) := by
  refine Ends.mono (ends_foldlM (fun done s => Accounts outsize.toNat done s ∧
    s.sizes.sum ≤ (done.map (maxStored grow)).sum) chunks ?init ?step)
    (fun s hs => hs.1.length_eq) fun _ h => h
  case init => exact ⟨Accounts.init outbuf outsize w, by simp [compressInit]⟩
  case step =>
    intro done part rest s hxs hs
    exact grows_step hc outsize.toNat_lt hs (hfit done part rest hxs)

/-- The whole loop under the greedy codec: only a list that fits is stored. -/
theorem greedy_run {chunks : List ℕ} (hpos : ∀ c ∈ chunks, 0 < c) (outbuf : Mem)
    (outsize : UInt64) (w : σ) :
    Ends (fun _ => Fits grow outsize.toNat chunks) (fun _ => True)
      (chunks.foldlM (compressStep (greedy grow) inbuf param1 param2 workmem)
        (compressInit outbuf outsize w)) := by
  refine Ends.mono (ends_foldlM (fun done s =>
    s.outsize = outsize.toNat - (done.map (maxStored grow)).sum ∧ Fits grow outsize.toNat done)
    chunks ?init ?step) (fun s hs => hs.2) fun _ h => h
  case init => exact ⟨by simp [compressInit], fun d p r hd => by simp at hd⟩
  case step =>
    intro done part rest s hxs hs
    exact greedy_step outsize.toNat_lt (hpos part (by simp [hxs])) hs.1 hs.2

/-- When the output buffer suffices.  A buffer of the bound of the whole input takes
every chunk, under every codec of the given growth, exactly when every chunk fits
after the worst case of the chunks before it. -/
theorem outputBuffer_suffices_iff (grow : ℕ → ℕ) {chunkSize : ℕ} {fileSizes chunks : List ℕ}
    (hsplit : splitFiles chunkSize fileSizes = some chunks) (hlen : chunks.length < 2 ^ 31) :
    (∀ (σ : Type) (compress : CompressFunc σ) (inbuf : Mem) (param1 param2 workmem : ℕ)
        (comprSizes : List ℕ) (outbuf : Mem) (outsize : UInt64) (w : σ),
      GrowsBy grow compress → outsize.toNat = getCompressBound fileSizes.sum →
      ∃ r, lzbenchCompress compress inbuf param1 param2 workmem chunks comprSizes outbuf
          outsize w = .ok r ∧ r.aborted = false ∧ r.comprSizes.length = chunks.length) ↔
      Fits grow (getCompressBound fileSizes.sum) chunks := by
  constructor
  · intro h
    let outsize := UInt64.ofNat (getCompressBound fileSizes.sum)
    have hcap : outsize.toNat = getCompressBound fileSizes.sum :=
      UInt64.toNat_ofNat_of_lt' (getCompressBound_lt _)
    obtain ⟨r, hr, hab, -⟩ := h Unit (greedy grow) (Mem.ofList []) 0 0 0 [] (Mem.ofList [])
      outsize () (growsBy_greedy grow) hcap
    have hpos : ∀ c ∈ chunks, 0 < c := fun c hc => ((splitFiles_some hsplit).2 c hc).1
    have hfit : r.aborted = false → Fits grow outsize.toNat chunks := by
      refine lzbenchCompress_ok _ _ _ _ _ hlen hr (greedy_run hpos _ _ _) ?_ ?_
        (P := fun r => r.aborted = false → Fits grow outsize.toNat chunks)
      · exact fun _ hs _ => hs
      · intro _ _ hab
        simp [compressResult] at hab
    exact hcap ▸ hfit hab
  · intro hfit σ compress inbuf param1 param2 workmem comprSizes outbuf outsize w hc hout
    obtain ⟨r, hr⟩ := lzbenchCompress_returns compress inbuf param1 param2 workmem hlen
      comprSizes outbuf outsize w
    refine ⟨r, hr, ?_⟩
    refine lzbenchCompress_ok _ _ _ _ _ hlen hr (grows_run hc (hout ▸ hfit) _ _) ?_ ?_
      (P := fun r => r.aborted = false ∧ r.comprSizes.length = chunks.length)
    · intro s hs
      refine ⟨rfl, ?_⟩
      change (s.sizes ++ _).length = _
      rw [stored_append_drop hs, hs]
    · exact fun _ h => h.elim

/-- With no bound on the growth, three files of one byte overrun the buffer: the
first chunk takes its whole bound, the second what is left. -/
theorem outputBuffer_overrun :
    splitFiles 1024 [1, 1, 1] = some [1, 1, 1] ∧
    NeverExceeds (greedy getCompressBound : CompressFunc Unit) ∧
    getCompressBound [1, 1, 1].sum = 16387 ∧
    ∃ r, lzbenchCompress (greedy getCompressBound : CompressFunc Unit) (Mem.ofList [1, 2, 3])
        0 0 0 [1, 1, 1] [] (Mem.ofList []) 16387 () = .ok r ∧
      r.aborted = true ∧ r.ret = 0 ∧ r.comprSizes = [16385, 2, 0] :=
  ⟨by decide, fun a w => (growsBy_greedy getCompressBound a w).1, by decide, _, rfl, rfl, rfl, rfl⟩

/-- Two files, under the codec that takes the most. -/
theorem outputBuffer_suffices_two :
    ∃ r, lzbenchCompress (greedy getCompressBound : CompressFunc Unit) (Mem.ofList [1, 2, 3])
        0 0 0 [1, 2] [] (Mem.ofList []) 16387 () = .ok r ∧ r.aborted = false := by
  have hfit : Fits getCompressBound (getCompressBound [1, 2].sum) [1, 2] := by
    intro done part rest h
    rcases done with _ | ⟨a, _ | ⟨b, done⟩⟩
    · obtain ⟨rfl, -⟩ : 1 = part ∧ [2] = rest := by simpa using h
      decide
    · obtain ⟨rfl, rfl, -⟩ : 1 = a ∧ 2 = part ∧ [] = rest := by simpa using h
      decide
    · simp at h
  have hsplit : splitFiles 1024 [1, 2] = some [1, 2] := by decide
  obtain ⟨r, hr, hab, -⟩ := (outputBuffer_suffices_iff getCompressBound hsplit
    (by decide)).mpr hfit Unit (greedy getCompressBound) (Mem.ofList [1, 2, 3]) 0 0 0 []
    (Mem.ofList []) 16387 () (growsBy_greedy _) (by decide)
  exact ⟨r, hr, hab⟩

end Grows

end Lzbench
