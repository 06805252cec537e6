import Lzbench.ZlingStream

/-!
# What zling decodes

`Decode` reads a flag before every block, and a byte that is no flag, or a size that is too large,
is an error.  It stops at the end of the input wherever a flag is expected, so that it does not
miss the last one.

## Main definitions

* `ZlingStop` — how `Decode` is left.
* `zlingDecode` — the function.
* `lzbenchZlingDecompress` — its wrapper.
* `MakesStream.decode` — the blocks of an input are decoded to it, with the last flag or without.
-/

namespace Lzbench

open Imperative MemOutputter

/-- How `Decode` is left before its end. -/
inductive ZlingStop
  | hang
  /-- A byte is read where there are none, or a number is no `int`. -/
  | undefined
  | thrown (e : ZlingError)

/-- The bytes of a number. -/
abbrev uint32Bytes (v : ℕ) : List UInt8 := (ZlingPut.uint32 v).bytes

namespace MemInputter

/-- `GetChar`. -/
def getChar (r : MemInputter) : Except ZlingStop (ℕ × MemInputter) :=
  if r.isEnd then .error .undefined
  else .ok (((r.getData (fun _ => 0) 0 1).2.1 0).toNat, (r.getData (fun _ => 0) 0 1).2.2)

/-- `GetUInt32`.  The product of the first byte is one of `int`s. -/
def getUInt32 (r : MemInputter) : Except ZlingStop (ℕ × MemInputter) := do
  let c₁ ← r.getChar
  let c₂ ← c₁.2.getChar
  let c₃ ← c₂.2.getChar
  let c₄ ← c₃.2.getChar
  if c₁.1 * 16777216 ≥ 2 ^ 31 then throw .undefined
  pure (c₁.1 * 16777216 + c₂.1 * 65536 + c₃.1 * 256 + c₄.1 * 1, c₄.2)

variable {r : MemInputter}

theorem getChar_spec {b : UInt8} {l : List UInt8} (h : r.rest = b :: l) :
    ∃ r', r.getChar = .ok (b.toNat, r') ∧ r'.rest = l := by
  obtain ⟨-, hbytes, -, hrest⟩ := r.getData_spec (fun _ => 0) 0 1
  have hend : ¬ r.isEnd = true := by
    rw [isEnd_iff, h]
    exact List.cons_ne_nil b l
  have hbyte := hbytes 0 (by rw [h, List.length_cons]; omega)
  rw [h, Nat.zero_add, List.getD_cons_zero] at hbyte
  refine ⟨(r.getData (fun _ => 0) 0 1).2.2, ?_, ?_⟩
  · rw [getChar, if_neg hend, hbyte]
  · rw [hrest, h, List.drop_one, List.tail_cons]

/-- A number is read back. -/
theorem getUInt32_spec {v : ℕ} (hv : v < 2 ^ 31) {l : List UInt8}
    (h : r.rest = uint32Bytes v ++ l) : ∃ r', r.getUInt32 = .ok (v, r') ∧ r'.rest = l := by
  have hbyte : ∀ n, (UInt8.ofNat (n % 256)).toNat = n % 256 := fun n => by
    rw [UInt8.toNat_ofNat', Nat.mod_mod]
  obtain ⟨r₁, hc₁, h₁⟩ := getChar_spec h
  obtain ⟨r₂, hc₂, h₂⟩ := getChar_spec h₁
  obtain ⟨r₃, hc₃, h₃⟩ := getChar_spec h₂
  obtain ⟨r₄, hc₄, h₄⟩ := getChar_spec h₃
  rw [hbyte] at hc₁ hc₂ hc₃ hc₄
  refine ⟨r₄, ?_, h₄⟩
  have hsmall : ¬ v / 16777216 % 256 * 16777216 ≥ 2 ^ 31 := by omega
  have hsum : v / 16777216 % 256 * 16777216 + v / 65536 % 256 * 65536 + v / 256 % 256 * 256 +
      v / 1 % 256 * 1 = v := by omega
  simp only [getUInt32, hc₁, hc₂, hc₃, hc₄, bind, Except.bind, if_neg hsmall, pure, Except.pure,
    hsum]

/-- A block is read back. -/
theorem fill_append {fuel : ℕ} (hfuel : 0 < fuel) (buf : Mem) {block l : List UInt8}
    (h : r.rest = block ++ l) :
    ∃ buf' r', r.fill fuel buf block.length = some (block.length, buf', r') ∧
      (∀ i < block.length, buf' i = block.getD i 0) ∧ r'.rest = l := by
  obtain ⟨buf', r', hrun, hbytes, -, hrest⟩ := r.fill_spec hfuel buf block.length
  have hmin : min block.length r.rest.length = block.length := by
    rw [h, List.length_append]
    omega
  rw [hmin] at hrun hbytes
  refine ⟨buf', r', hrun, fun i hi => ?_, ?_⟩
  · rw [hbytes i hi, h, List.getD_append _ _ _ _ hi]
  · rw [hrest, h, List.drop_left]

end MemInputter

/-! ## The function -/

/-- The variables of `Decode`. -/
structure ZlingDecode where
  inputter : MemInputter
  outputter : MemOutputter
  lzdecoder : ZlingRolzDecoder
  ibuf : Mem
  obuf : Mem
  tbuf : ℕ → ℕ
  decpos : ℕ

namespace ZlingDecode

/-- A block, behind its flag.  No number is negative. -/
def block (fuel : ℕ) (s : ZlingDecode) : Except ZlingStop ZlingDecode := do
  let encpos ← s.inputter.getUInt32
  let rlen ← encpos.2.getUInt32
  let olen ← rlen.2.getUInt32
  if rlen.1 > kBlockSizeRolz ∨ olen.1 > kBlockSizeHuffman then throw (.thrown .blockSize)
  match olen.2.fill fuel s.obuf olen.1 with
  | none => throw .hang
  | some (_, obuf, inputter) =>
    match zlingDecodeBlock obuf s.tbuf rlen.1 with
    | .error e => throw (.thrown e)
    | .ok tbuf =>
      match s.lzdecoder.decode tbuf s.ibuf rlen.1 encpos.1 s.decpos with
      | none => throw .hang
      | some none => throw (.thrown .lzdecode)
      | some (some d) => pure { s with
          inputter := inputter
          lzdecoder := d.toZlingRolzDecoder
          ibuf := d.obuf
          obuf := obuf
          tbuf := tbuf
          decpos := d.opos }

/-- A round of the loop over the blocks of a buffer, or its end. -/
def blockStep (fuel : ℕ) (s : ZlingDecode) : ZlingDecode ⊕ Except ZlingStop ZlingDecode :=
  if s.inputter.isEnd then .inr (.ok s)
  else
    match s.inputter.getChar with
    | .error e => .inr (.error e)
    | .ok (encflag, inputter) =>
      if encflag ≠ 0 ∧ encflag ≠ 1 then .inr (.error (.thrown .encflag))
      else if encflag = 0 then .inr (.ok { s with inputter := inputter })
      else
        match { s with inputter := inputter }.block fuel with
        | .error e => .inr (.error e)
        | .ok s => .inl s

/-- The blocks of a buffer, and what they are written to.  Every block takes a byte of the
input. -/
def buffer (fuel : ℕ) (s : ZlingDecode) : Except ZlingStop ZlingDecode :=
  match loopTo (blockStep fuel) (s.inputter.mBuflen + 1)
      { s with decpos := 0, lzdecoder := s.lzdecoder.reset } with
  | none => .error .hang
  | some (.error e) => .error e
  | some (.ok s) =>
    match s.outputter.drain fuel (s.ibuf.bytes 0 s.decpos) with
    | none => .error .hang
    | some outputter => .ok { s with outputter := outputter }

/-- A round of the loop of `Decode`, or its end. -/
def step (fuel : ℕ) (s : ZlingDecode) : ZlingDecode ⊕ Except ZlingStop ZlingDecode :=
  if s.inputter.isEnd then .inr (.ok s)
  else
    match s.buffer fuel with
    | .error e => .inr (.error e)
    | .ok s => .inl s

end ZlingDecode

/-- `Decode`, with what its buffers hold in the beginning. -/
def zlingDecode (fuel : ℕ) (ibuf obuf : Mem) (tbuf : ℕ → ℕ) (inputter : MemInputter)
    (outputter : MemOutputter) : Except ZlingStop ZlingDecode :=
  (loopTo (ZlingDecode.step fuel) (inputter.mBuflen + 1)
    ⟨inputter, outputter, .init, ibuf, obuf, tbuf, 0⟩).getD (.error .hang)

/-- `lzbench_zling_decompress`. -/
def lzbenchZlingDecompress (fuel : ℕ) (ibuf obuf : Mem) (tbuf : ℕ → ℕ) (a : CodecArgs) :
    Except ZlingStop (ℤ × Mem) :=
  match zlingDecode fuel ibuf obuf tbuf (.init a.inbuf a.inpos a.insize)
      (.init a.outbuf a.outpos a.outsize) with
  | .error e => .error e
  | .ok s => .ok (toInt64 s.outputter.getOutputSize, s.outputter.mem)

/-! ## What the blocks are decoded to -/

section Blocks

variable {text : Mem} {ilen pos pos' : ℕ} {e e' : ZlingRolzEncoder} {b : ZlingBlock}
  {blocks : List ZlingBlock} {l l' : List UInt8} {s : ZlingDecode}

/-- The first `pos` bytes of a buffer are decoded, by a decoder that goes with `e`, and `l` is
what is left to read. -/
structure ZlingDecode.At (text : Mem) (ilen pos : ℕ) (e : ZlingRolzEncoder) (l : List UInt8)
    (s : ZlingDecode) : Prop where
  rest_eq : s.inputter.rest = l
  decpos_eq : s.decpos = pos
  paired : Paired text ilen pos e s.lzdecoder s.ibuf

theorem ZlingBlock.bytes_eq (b : ZlingBlock) : b.bytes = 1 :: (uint32Bytes b.encpos ++
    (uint32Bytes b.rlen ++ (uint32Bytes b.obuf.length ++ b.obuf))) := by
  simp only [bytes, puts, List.flatMap_cons, List.flatMap_nil, List.append_nil, bytes_char,
    bytes_block, List.singleton_append, uint32Bytes]
  rfl

/-- A block is decoded. -/
theorem MakesBlock.decode (h : MakesBlock text ilen pos e b pos' e') (hlen : ilen ≤ 2 ^ 24)
    (hs : s.At text ilen pos e (b.bytes ++ l)) (fuel : ℕ) :
    ∃ s', s.blockStep (fuel + 1) = .inl s' ∧ s'.At text ilen pos' e' l ∧
      s'.outputter = s.outputter := by
  have hrest := hs.rest_eq
  have hpos := h.pos_le
  have hencpos := h.encpos_eq
  have hrlen := h.rlen_le
  have holen := h.olen_le
  have hrolz : kBlockSizeRolz = 262144 := rfl
  have hhuffman : kBlockSizeHuffman = 393216 := rfl
  have hend : ¬ s.inputter.isEnd = true := by
    rw [MemInputter.isEnd_iff, hrest, ZlingBlock.bytes_eq]
    exact List.cons_ne_nil _ _
  -- the header and the bytes are read
  rw [ZlingBlock.bytes_eq, List.cons_append, List.append_assoc, List.append_assoc,
    List.append_assoc] at hrest
  obtain ⟨r₀, hflag, hrest⟩ := MemInputter.getChar_spec hrest
  obtain ⟨r₁, hget₁, hrest⟩ := MemInputter.getUInt32_spec (by omega) hrest
  obtain ⟨r₂, hget₂, hrest⟩ := MemInputter.getUInt32_spec (by omega) hrest
  obtain ⟨r₃, hget₃, hrest⟩ := MemInputter.getUInt32_spec (by omega) hrest
  obtain ⟨obuf, r₄, hfill, hobuf, hrest⟩ :=
    MemInputter.fill_append (Nat.succ_pos fuel) s.obuf hrest
  obtain ⟨tbuf, d, hhuff, hrun, hopos, hpaired⟩ :=
    h.decodes s.lzdecoder s.ibuf hs.paired obuf s.tbuf hobuf
  have hsizes : ¬ (b.rlen > kBlockSizeRolz ∨ b.obuf.length > kBlockSizeHuffman) := by omega
  have hone : ¬ ((1 : UInt8).toNat ≠ 0 ∧ (1 : UInt8).toNat ≠ 1) := by decide
  have hgo : ¬ (1 : UInt8).toNat = 0 := by decide
  refine ⟨⟨r₄, s.outputter, d.toZlingRolzDecoder, d.obuf, obuf, tbuf, d.opos⟩, ?_,
    ⟨hrest, hopos, hpaired⟩, rfl⟩
  simp only [ZlingDecode.blockStep, if_neg hend, hflag, if_neg hone, if_neg hgo,
    ZlingDecode.block, hget₁, hget₂, hget₃, bind, Except.bind, if_neg hsizes, pure, Except.pure,
    hfill, hhuff, hs.decpos_eq, hrun]

/-- Some blocks are decoded, one after the other. -/
theorem MakesBlocks.decode (h : MakesBlocks text ilen pos e blocks pos' e') (hlen : ilen ≤ 2 ^ 24)
    (hs : s.At text ilen pos e (blocks.flatMap ZlingBlock.bytes ++ l)) (fuel : ℕ) {n : ℕ}
    (hn : s.inputter.rest.length < n) :
    ∃ s' n', loopTo (ZlingDecode.blockStep (fuel + 1)) n s =
        loopTo (ZlingDecode.blockStep (fuel + 1)) n' s' ∧ l.length < n' ∧
      s'.At text ilen pos' e' l ∧ s'.outputter = s.outputter := by
  induction h generalizing s n with
  | nil pos e =>
    refine ⟨s, n, rfl, ?_, hs, rfl⟩
    rwa [hs.rest_eq] at hn
  | @cons pos pos₁ pos' e e₁ e' b blocks hb _ ih =>
    rw [List.flatMap_cons, List.append_assoc] at hs
    have hrest := hs.rest_eq
    obtain ⟨n, rfl⟩ := Nat.exists_eq_succ_of_ne_zero (by omega : n ≠ 0)
    obtain ⟨s₁, hstep, hs₁, hout₁⟩ := hb.decode hlen hs fuel
    have hshort : s₁.inputter.rest.length < n := by
      rw [hrest, List.length_append, b.length_bytes] at hn
      rw [hs₁.rest_eq]
      omega
    obtain ⟨s', n', hrun, hn', hs', hout'⟩ := ih hs₁ hshort
    refine ⟨s', n', ?_, hn', hs', hout'.trans hout₁⟩
    rw [loopTo_next hstep, hrun]

/-- Behind the blocks there is the flag that ends them, or nothing at all. -/
def Stops (l l' : List UInt8) : Prop := l = 0 :: l' ∨ l = [] ∧ l' = []

/-- The outputter has come from `o` to `o'` by writing `bytes`, and nothing outside of its
buffer. -/
structure Wrote (o o' : MemOutputter) (bytes : List UInt8) : Prop where
  adds : o.Extends o' bytes
  within : Mem.WritesWithin o.mem o'.mem o.mBuffer o.mBuflen

/-- A write stays inside of the buffer. -/
theorem MemOutputter.within_putData (o : MemOutputter) (buf : List UInt8) :
    Mem.WritesWithin o.mem (o.putData buf).2.mem o.mBuffer o.mBuflen := by
  have hle := o.totalWrite_add_putLen buf.length
  have hpatch : (Patch.ofList (buf.take (o.putLen buf.length))).Within (o.putLen buf.length) := by
    intro p hp
    rw [Patch.ofList, List.getElem?_eq_none_iff, List.length_take]
    omega
  exact (Patch.writesWithin_onto_shift hpatch o.mem _).mono (by omega) (by omega)

/-- A buffer is decoded and written. -/
theorem MakesBlocks.buffer (h : MakesBlocks text ilen 0 e.reset blocks ilen e')
    (hlen : ilen ≤ 2 ^ 24) (hmtf : ∀ c, (s.lzdecoder.mtf c).table = (e.mtf c).table)
    (hrest : s.inputter.rest = blocks.flatMap ZlingBlock.bytes ++ l) (hstops : Stops l l')
    (hroom : ilen ≤ s.outputter.room) (fuel : ℕ) :
    ∃ s', s.buffer (fuel + 1) = .ok s' ∧ s'.inputter.rest = l' ∧
      (∀ c, (s'.lzdecoder.mtf c).table = (e'.mtf c).table) ∧
      Wrote s.outputter s'.outputter (text.bytes 0 ilen) := by
  let start : ZlingDecode := { s with decpos := 0, lzdecoder := s.lzdecoder.reset }
  have hstart : start.At text ilen 0 e.reset (blocks.flatMap ZlingBlock.bytes ++ l) :=
    ⟨hrest, rfl, paired_reset hmtf text ilen s.ibuf⟩
  have hfuel : start.inputter.rest.length < start.inputter.mBuflen + 1 := by
    rw [MemInputter.length_rest]
    omega
  obtain ⟨t, n, hrun, hn, ht, hout⟩ := h.decode hlen hstart fuel hfuel
  obtain ⟨n, rfl⟩ := Nat.exists_eq_succ_of_ne_zero (by omega : n ≠ 0)
  have hend : ∃ r', loopTo (ZlingDecode.blockStep (fuel + 1)) (n + 1) t =
      some (.ok { t with inputter := r' }) ∧ r'.rest = l' := by
    cases hstops with
    | inl hflag =>
      have htrest := ht.rest_eq
      rw [hflag] at htrest
      have hmore : ¬ t.inputter.isEnd = true := by
        rw [MemInputter.isEnd_iff, htrest]
        exact List.cons_ne_nil _ _
      obtain ⟨r', hget, hr'⟩ := MemInputter.getChar_spec htrest
      have hzero : ¬ ((0 : UInt8).toNat ≠ 0 ∧ (0 : UInt8).toNat ≠ 1) := by decide
      refine ⟨r', loopTo_return ?_ n, hr'⟩
      simp only [ZlingDecode.blockStep, if_neg hmore, hget, if_neg hzero]
      exact if_pos rfl
    | inr hnone =>
      have htrest := ht.rest_eq
      rw [hnone.1] at htrest
      have hstep : t.blockStep (fuel + 1) = .inr (.ok t) :=
        if_pos (t.inputter.isEnd_iff.mpr htrest)
      exact ⟨t.inputter, loopTo_return hstep n, htrest.trans hnone.2.symm⟩
  obtain ⟨r', hlast, hr'⟩ := hend
  have hbytes : t.ibuf.bytes 0 t.decpos = text.bytes 0 ilen := by
    rw [ht.decpos_eq]
    exact Mem.bytes_eq_bytes_iff.mpr ht.paired.bytes
  have hfit : (text.bytes 0 ilen).length ≤ s.outputter.room := by rwa [Mem.length_bytes]
  refine ⟨{ t with
      inputter := r'
      outputter := if text.bytes 0 ilen = [] then s.outputter
        else (s.outputter.putData (text.bytes 0 ilen)).2 },
    ?_, hr', ht.paired.mtf_eq, ⟨extends_block hfit, ?_⟩⟩
  · rw [ZlingDecode.buffer, hrun, hlast]
    simp only [hbytes, hout, start, s.outputter.drain_of_le hfit]
  · split
    · exact Mem.writesWithin_refl _ _ _
    · exact s.outputter.within_putData _

/-- What is left of a stream behind its first buffer. -/
theorem stops_of_rest {inputs : List (List ZlingBlock)} {rest : List UInt8}
    (h : rest = zlingStream (blocks :: inputs) ∨ rest = (zlingStream (blocks :: inputs)).dropLast) :
    ∃ l l', rest = blocks.flatMap ZlingBlock.bytes ++ l ∧ Stops l l' ∧
      (l' = zlingStream inputs ∨ l' = (zlingStream inputs).dropLast) := by
  rw [zlingStream_cons] at h
  cases h with
  | inl hall => exact ⟨_, _, hall, Or.inl rfl, Or.inl rfl⟩
  | inr hcut =>
    rw [List.dropLast_append_of_ne_nil (List.cons_ne_nil _ _)] at hcut
    cases hz : zlingStream inputs with
    | nil =>
      rw [hz] at hcut
      exact ⟨[], [], hcut, Or.inr ⟨rfl, rfl⟩, Or.inl rfl⟩
    | cons b z =>
      rw [hz, List.dropLast_cons_of_ne_nil (List.cons_ne_nil b z)] at hcut
      exact ⟨_, _, hcut, Or.inl rfl, Or.inr rfl⟩

theorem Wrote.trans {o o' o'' : MemOutputter} {bytes bytes' : List UInt8} (h : Wrote o o' bytes)
    (h' : Wrote o' o'' bytes') : Wrote o o'' (bytes ++ bytes') := by
  refine ⟨h.adds.trans h'.adds, h.within.trans ?_⟩
  have hwithin := h'.within
  rwa [h.adds.mBuffer_eq, h.adds.mBuflen_eq] at hwithin

/-- The stream of an input is decoded to it, and so it is without its last flag. -/
theorem MakesStream.decode {input : List UInt8} {inputs : List (List ZlingBlock)}
    (h : MakesStream input e inputs) (hmtf : ∀ c, (s.lzdecoder.mtf c).table = (e.mtf c).table)
    (hrest : s.inputter.rest = zlingStream inputs ∨
      s.inputter.rest = (zlingStream inputs).dropLast)
    (hroom : input.length ≤ s.outputter.room) (fuel : ℕ) {n : ℕ}
    (hn : s.inputter.rest.length < n) :
    ∃ s', loopTo (ZlingDecode.step (fuel + 1)) n s = some (.ok s') ∧
      Wrote s.outputter s'.outputter input := by
  induction h generalizing s n with
  | nil e =>
    obtain ⟨n, rfl⟩ := Nat.exists_eq_succ_of_ne_zero (by omega : n ≠ 0)
    have hnil : s.inputter.rest = [] := by
      cases hrest with
      | inl hall => exact hall
      | inr hcut => exact hcut
    have hstep : s.step (fuel + 1) = .inr (.ok s) := if_pos (s.inputter.isEnd_iff.mpr hnil)
    exact ⟨s, loopTo_return hstep n, MemOutputter.Extends.refl _, Mem.writesWithin_refl _ _ _⟩
  | @cons text ilen e e' blocks input inputs hpos hle _ hblocks _ ih =>
    obtain ⟨n, rfl⟩ := Nat.exists_eq_succ_of_ne_zero (by omega : n ≠ 0)
    obtain ⟨l, l', hsplit, hstops, hrest'⟩ := stops_of_rest hrest
    rw [List.length_append, Mem.length_bytes] at hroom
    obtain ⟨s₁, hbuffer, hl', hmtf₁, hwrote⟩ :=
      hblocks.buffer hle hmtf hsplit hstops (by omega) fuel
    have hlarge : 0 < (blocks.flatMap ZlingBlock.bytes).length := by
      cases hblocks with
      | nil => exact absurd hpos (lt_irrefl 0)
      | @cons _ _ _ _ _ _ b _ _ _ =>
        rw [List.flatMap_cons, List.length_append, b.length_bytes]
        omega
    have hshort : l'.length ≤ l.length := by
      cases hstops with
      | inl hflag => rw [hflag]; exact Nat.le_succ _
      | inr hnone => rw [hnone.2]; exact Nat.zero_le _
    rw [hsplit, List.length_append] at hn
    have hmore : ¬ s.inputter.isEnd = true := by
      rw [MemInputter.isEnd_iff, hsplit, List.append_eq_nil_iff, ← List.length_eq_zero_iff]
      omega
    have hstep : s.step (fuel + 1) = .inl s₁ := by
      simp only [ZlingDecode.step, if_neg hmore, hbuffer]
    have hroom₁ := hwrote.adds.room_eq
    rw [Mem.length_bytes] at hroom₁
    obtain ⟨s', hrun, hwrote'⟩ := ih (n := n) hmtf₁ (by rwa [hl']) (by omega) (by rw [hl']; omega)
    refine ⟨s', ?_, hwrote.trans hwrote'⟩
    rw [loopTo_next hstep, hrun]

end Blocks

/-! ## The wrapper -/

/-- The wrapper gives back the input of a stream, with its last flag or without, whatever its
buffers hold in the beginning. -/
theorem lzbenchZlingDecompress_spec {input : List UInt8} {inputs : List (List ZlingBlock)}
    (h : MakesStream input .init inputs) (ibuf obuf : Mem) (tbuf : ℕ → ℕ) {a : CodecArgs}
    (hstream : a.input = zlingStream inputs ∨ a.input = (zlingStream inputs).dropLast)
    (hroom : input.length ≤ a.outsize) (fuel : ℕ) :
    ∃ out, lzbenchZlingDecompress (fuel + 1) ibuf obuf tbuf a = .ok (toInt64 input.length, out) ∧
      out.bytes a.outpos input.length = input ∧
      Mem.WritesWithin a.outbuf out a.outpos a.outsize := by
  let start : ZlingDecode := ⟨.init a.inbuf a.inpos a.insize, .init a.outbuf a.outpos a.outsize,
    .init, ibuf, obuf, tbuf, 0⟩
  have hrest : start.inputter.rest = a.input := rfl
  have hfuel : start.inputter.rest.length < a.insize + 1 := by
    rw [hrest, CodecArgs.input, Mem.length_bytes]
    omega
  obtain ⟨s, hrun, hwrote⟩ := h.decode (s := start) (fun _ => rfl) (by rwa [hrest]) hroom fuel hfuel
  have htotal : s.outputter.mTotalWrite = input.length :=
    hwrote.adds.totalWrite_eq.trans (Nat.zero_add _)
  have hbytes := hwrote.adds.contents_eq
  rw [contents, contents, htotal, hwrote.adds.mBuffer_eq] at hbytes
  refine ⟨s.outputter.mem, ?_, hbytes, hwrote.within⟩
  simp only [lzbenchZlingDecompress, zlingDecode]
  rw [show (MemInputter.init a.inbuf a.inpos a.insize).mBuflen = a.insize from rfl, hrun]
  simp only [Option.getD_some, getOutputSize, htotal]

end Lzbench
