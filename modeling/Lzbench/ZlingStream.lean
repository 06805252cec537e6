import Lzbench.Zling
import Lzbench.ZlingSize

/-!
# The stream of zling

`Encode` reads its input into a buffer of 16 megabytes at a time.  The coder forgets the positions
of the last buffer and keeps the ranks; then it makes blocks until the buffer is done.  A block
that has hardly become smaller is followed by one of the lowest level.

`MakesStream` says what a list of blocks is for an input, in terms of what a decoder makes of
them.

## Main definitions

* `MemInputter` — the input and how much of it is read.
* `zlingBlocks` — the blocks of an input.
* `MakesBlock`, `MakesBlocks`, `MakesStream` — what the decoder relies on.
* `zlingBlocks_spec` — every input is made into blocks.
* `FitBlocks`, `zlingBlocks_fit` — the blocks fit into the buffers of the coder.
* `MakesStream.length_le_grow` — the stream is larger than the input by less than a sixth.
-/

namespace Lzbench

open Imperative

def kBlockSizeIn : ℕ := 16777216

/-! ## Reading -/

/-- `MemInputter`. -/
structure MemInputter where
  mem : Mem
  mBuffer : ℕ
  mBuflen : ℕ
  mTotalRead : ℕ
  totalRead_le : mTotalRead ≤ mBuflen

namespace MemInputter

def init (mem : Mem) (buffer buflen : ℕ) : MemInputter := ⟨mem, buffer, buflen, 0, Nat.zero_le _⟩

/-- `IsEnd`. -/
def isEnd (r : MemInputter) : Bool := r.mTotalRead ≥ r.mBuflen

/-- What `GetData` takes of `len` bytes. -/
def getLen (r : MemInputter) (len : ℕ) : ℕ :=
  if len > r.mBuflen - r.mTotalRead then r.mBuflen - r.mTotalRead else len

theorem getLen_eq (r : MemInputter) (len : ℕ) :
    r.getLen len = min len (r.mBuflen - r.mTotalRead) := by
  simp only [getLen]
  split <;> omega

/-- `GetData`, to `buf + off`. -/
def getData (r : MemInputter) (buf : Mem) (off len : ℕ) : ℕ × Mem × MemInputter :=
  (r.getLen len, buf.copy off r.mem (r.mBuffer + r.mTotalRead) (r.getLen len),
    { r with
      mTotalRead := r.mTotalRead + r.getLen len
      totalRead_le := by
        have hle := r.totalRead_le
        rw [getLen_eq]
        omega })

/-- The loop that reads `len` bytes, or what there is, for at most `fuel` rounds: how many they
are, the buffer, and the inputter. -/
def fill (fuel : ℕ) (r : MemInputter) (buf : Mem) (len : ℕ) : Option (ℕ × Mem × MemInputter) :=
  whileDo (fun s : ℕ × Mem × MemInputter => !s.2.2.isEnd && decide (s.1 < len))
    (fun s => (s.1 + (s.2.2.getData s.2.1 s.1 (len - s.1)).1,
      (s.2.2.getData s.2.1 s.1 (len - s.1)).2)) fuel (0, buf, r)

/-- What is not read yet. -/
def rest (r : MemInputter) : List UInt8 :=
  r.mem.bytes (r.mBuffer + r.mTotalRead) (r.mBuflen - r.mTotalRead)

variable (r : MemInputter)

theorem length_rest : r.rest.length = r.mBuflen - r.mTotalRead := Mem.length_bytes _ _ _

theorem isEnd_iff : r.isEnd = true ↔ r.rest = [] := by
  rw [← List.length_eq_zero_iff, length_rest]
  simp only [isEnd, decide_eq_true_eq]
  omega

/-- The first bytes of the rest are put down, and the others are left. -/
theorem getData_spec (buf : Mem) (off len : ℕ) :
    (r.getData buf off len).1 = min len r.rest.length ∧
      (∀ i < min len r.rest.length, (r.getData buf off len).2.1 (off + i) = r.rest.getD i 0) ∧
      Mem.WritesWithin buf (r.getData buf off len).2.1 off len ∧
      (r.getData buf off len).2.2.rest = r.rest.drop len := by
  have hlen : r.getLen len = min len r.rest.length := by rw [getLen_eq, length_rest]
  refine ⟨hlen, fun i hi => ?_, ?_, ?_⟩
  · have hin : i < r.rest.length := by omega
    have hcopy := Mem.sameBytes_copy buf off r.mem (r.mBuffer + r.mTotalRead) (r.getLen len) i
      (hlen ▸ hi)
    rw [List.getD_eq_getElem _ _ hin]
    simpa [getData, rest, Mem.bytes] using hcopy
  · exact (Mem.writesWithin_copy buf off r.mem _ (r.getLen len)).mono le_rfl (by omega)
  · have hall : r.rest = r.mem.bytes (r.mBuffer + r.mTotalRead) (r.getLen len) ++
        (r.getData buf off len).2.2.rest := by
      have hbuflen : r.mBuflen - r.mTotalRead =
          r.getLen len + (r.mBuflen - (r.mTotalRead + r.getLen len)) := by
        rw [getLen_eq]
        omega
      rw [rest, hbuflen, Mem.bytes_add, Nat.add_assoc r.mBuffer]
      rfl
    have hdrop := congrArg (List.drop (r.getLen len)) hall
    rw [List.drop_left' (Mem.length_bytes _ _ _)] at hdrop
    rw [← hdrop, hlen]
    by_cases hle : len ≤ r.rest.length
    · rw [min_eq_left hle]
    · rw [min_eq_right (by omega), List.drop_length, List.drop_eq_nil_of_le (by omega)]

/-- The loop ends after a round. -/
theorem fill_spec {fuel : ℕ} (hfuel : 0 < fuel) (buf : Mem) (len : ℕ) :
    ∃ buf' r', r.fill fuel buf len = some (min len r.rest.length, buf', r') ∧
      (∀ i < min len r.rest.length, buf' i = r.rest.getD i 0) ∧
      Mem.WritesWithin buf buf' 0 len ∧ r'.rest = r.rest.drop len := by
  obtain ⟨fuel, rfl⟩ := Nat.exists_eq_succ_of_ne_zero hfuel.ne'
  by_cases hgo : r.rest ≠ [] ∧ 0 < len
  · obtain ⟨hn, hbytes, hwithin, hrest⟩ := r.getData_spec buf 0 len
    have htest : (!r.isEnd && decide (0 < len)) = true := by
      simp [hgo.2, (not_congr r.isEnd_iff).mpr hgo.1]
    have hlast : (!(r.getData buf 0 len).2.2.isEnd &&
        decide (min len r.rest.length < len)) = false := by
      rw [Bool.and_eq_false_iff, Bool.not_eq_false', isEnd_iff, hrest, decide_eq_false_iff_not,
        List.drop_eq_nil_iff]
      omega
    refine ⟨_, _, ?_, fun i hi => ?_, hwithin, hrest⟩
    · rw [fill, whileDo, if_pos htest]
      simp only [Nat.sub_zero, Nat.zero_add, hn]
      cases fuel <;> simp only [whileDo, hlast, Bool.false_eq_true, if_false]
    · have hbyte := hbytes i hi
      rwa [Nat.zero_add] at hbyte
  · have hnone : min len r.rest.length = 0 := by
      by_cases hnil : r.rest = []
      · simp [hnil]
      · have hlen : ¬ 0 < len := fun h => hgo ⟨hnil, h⟩
        omega
    have htest : (!r.isEnd && decide (0 < len)) = false := by
      rw [Bool.and_eq_false_iff, Bool.not_eq_false', isEnd_iff, decide_eq_false_iff_not]
      by_contra hno
      exact hgo ⟨fun h => hno (Or.inl h), by omega⟩
    refine ⟨buf, r, ?_, fun i hi => ?_, Mem.writesWithin_refl _ _ _, ?_⟩
    · rw [fill, whileDo, if_neg (by rw [htest]; exact Bool.false_ne_true), hnone]
    · omega
    · by_cases hnil : r.rest = []
      · rw [hnil, List.drop_nil]
      · rw [Nat.eq_zero_of_not_pos fun h => hgo ⟨hnil, h⟩, List.drop_zero]

end MemInputter

/-! ## Encoding -/

/-- The variables of the loop over the blocks of a buffer. -/
structure ZlingEncode where
  lzencoder : ZlingRolzEncoder
  currentLevel : ℤ
  encpos : ℕ
  blocks : List ZlingBlock

/-- The variables of `Encode`. -/
structure ZlingBuffers where
  inputter : MemInputter
  ibuf : Mem
  lzencoder : ZlingRolzEncoder
  currentLevel : ℤ
  inputs : List (List ZlingBlock)

section Encode

variable (pq : PriorityQueue (HuffmanTree ℕ) HuffmanTree.weight) (level : ℤ)

/-- A block.  The quotient of two such sizes is rounded to `.95` only if it is that, so the test
for data that cannot be compressed is one of integers. -/
def ZlingEncode.round (ibuf : Mem) (ilen : ℕ) (s : ZlingEncode) : Option ZlingEncode :=
  match s.lzencoder.encode s.currentLevel ibuf ilen kBlockSizeRolz s.encpos with
  | none => none
  | some (rlen, r) =>
    match h : zlingEncodeBlock pq r.obuf with
    | none => none
    | some obuf => some
      { lzencoder := r.toZlingRolzEncoder
        currentLevel := if 20 * obuf.length > 19 * (r.ipos - s.encpos + 1) then 0 else level
        encpos := r.ipos
        blocks := s.blocks ++ [⟨r.ipos, toUInt32 rlen, obuf, zlingEncodeBlock_ne_nil h⟩] }

/-- A round of the loop, or its end. -/
def ZlingEncode.step (ibuf : Mem) (ilen : ℕ) (s : ZlingEncode) :
    ZlingEncode ⊕ Option ZlingEncode :=
  if s.encpos < ilen then
    match s.round pq level ibuf ilen with
    | none => .inr none
    | some s => .inl s
  else .inr (some s)

/-- The blocks of the next buffer.  Outside of the levels every other block takes nothing. -/
def ZlingBuffers.round (s : ZlingBuffers) : Option ZlingBuffers :=
  match s.inputter.fill kBlockSizeIn s.ibuf kBlockSizeIn with
  | none => none
  | some (ilen, ibuf, inputter) =>
    match loopTo (ZlingEncode.step pq level ibuf ilen) (2 * ilen + 1)
        ⟨s.lzencoder.reset, s.currentLevel, 0, []⟩ with
    | some (some t) => some
      { inputter := inputter
        ibuf := ibuf
        lzencoder := t.lzencoder
        currentLevel := t.currentLevel
        inputs := s.inputs ++ [t.blocks] }
    | _ => none

/-- A round of the loop of `Encode`, or its end. -/
def ZlingBuffers.step (s : ZlingBuffers) : ZlingBuffers ⊕ Option ZlingBuffers :=
  if s.inputter.isEnd then .inr (some s)
  else
    match s.round pq level with
    | none => .inr none
    | some s => .inl s

/-- The blocks that `Encode` makes, buffer by buffer. -/
def zlingBlocks (ibuf : Mem) (inputter : MemInputter) : Option (List (List ZlingBlock)) :=
  match loopTo (ZlingBuffers.step pq level) (inputter.mBuflen + 1)
      ⟨inputter, ibuf, .init, level, []⟩ with
  | some (some s) => some s.inputs
  | _ => none

end Encode

/-! ## What a decoder relies on -/

/-- `b` is a block for the bytes of `text` from `pos` to `pos'`, by which the encoder comes from
`e` to `e'`: of it a decoder that goes with `e` makes these bytes, and then goes with `e'`. -/
structure MakesBlock (text : Mem) (ilen pos : ℕ) (e : ZlingRolzEncoder) (b : ZlingBlock)
    (pos' : ℕ) (e' : ZlingRolzEncoder) : Prop where
  encpos_eq : b.encpos = pos'
  pos_lt : pos < pos'
  pos_le : pos' ≤ ilen
  rlen_le : b.rlen ≤ kBlockSizeRolz
  olen_le : b.obuf.length ≤ kBlockSizeHuffman
  decodes : ∀ d ibuf, Paired text ilen pos e d ibuf → ∀ (obuf : Mem) tbuf,
    (∀ i < b.obuf.length, obuf i = b.obuf.getD i 0) →
    ∃ tbuf' d', zlingDecodeBlock obuf tbuf b.rlen = .ok tbuf' ∧
      d.decode tbuf' ibuf b.rlen b.encpos pos = some (some d') ∧
      d'.opos = pos' ∧ Paired text ilen pos' e' d'.toZlingRolzDecoder d'.obuf
  size_lt : 8280 * b.obuf.length < 8280 * 274 + 9575 * (pos' - pos)
  full : pos' < ilen → pos + kBlockSizeRolz ≤ pos' + 1

/-- The same for some blocks, one after the other. -/
inductive MakesBlocks (text : Mem) (ilen : ℕ) :
    ℕ → ZlingRolzEncoder → List ZlingBlock → ℕ → ZlingRolzEncoder → Prop
  | nil (pos : ℕ) (e : ZlingRolzEncoder) : MakesBlocks text ilen pos e [] pos e
  | cons {pos pos₁ pos' : ℕ} {e e₁ e' : ZlingRolzEncoder} {b : ZlingBlock}
      {blocks : List ZlingBlock} :
      MakesBlock text ilen pos e b pos₁ e₁ → MakesBlocks text ilen pos₁ e₁ blocks pos' e' →
      MakesBlocks text ilen pos e (b :: blocks) pos' e'

/-- The same for the blocks of an input, buffer by buffer. -/
inductive MakesStream : List UInt8 → ZlingRolzEncoder → List (List ZlingBlock) → Prop
  | nil (e : ZlingRolzEncoder) : MakesStream [] e []
  | cons {text : Mem} {ilen : ℕ} {e e' : ZlingRolzEncoder} {blocks : List ZlingBlock}
      {input : List UInt8} {inputs : List (List ZlingBlock)} :
      0 < ilen → ilen ≤ kBlockSizeIn → (input ≠ [] → ilen = kBlockSizeIn) →
      MakesBlocks text ilen 0 e.reset blocks ilen e' → MakesStream input e' inputs →
      MakesStream (text.bytes 0 ilen ++ input) e (blocks :: inputs)

section Block

variable {text : Mem} {ilen pos : ℕ} {e : ZlingRolzEncoder} {d : ZlingRolzDecoder} {obuf : Mem}
  (pq : PriorityQueue (HuffmanTree ℕ) HuffmanTree.weight) {level : ℤ}

/-- With the same ranks the two sides go together at the beginning of a buffer. -/
theorem paired_reset (h : ∀ c, (d.mtf c).table = (e.mtf c).table) (text : Mem) (ilen : ℕ)
    (obuf : Mem) : Paired text ilen 0 e.reset d.reset obuf where
  bytes := fun i hi => absurd hi (Nat.not_lt_zero i)
  mtf_eq := h
  same := fun _ => sameBuckets_reset (fun _ => rfl) fun _ => rfl
  valid := fun _ hpos => absurd hpos (lt_irrefl 0)
  fresh := fun _ => ⟨fun _ => rfl, fun _ => rfl⟩
  past := fun hone => absurd hone Nat.zero_ne_one

/-- A call at a level makes a block. -/
theorem Called.makesBlock {s : RolzEncode} {k : RolzLevel} (h : Paired text ilen pos e d obuf)
    (hlen : ilen ≤ 2 ^ 24) (hlt : pos < ilen)
    (hrun : e.encodeImpl k text ilen kBlockSizeRolz pos = some s) :
    ∃ bytes, zlingEncodeBlock pq s.obuf = some bytes ∧ ∀ hne : bytes ≠ [],
      MakesBlock text ilen pos e ⟨s.ipos, s.obuf.length, bytes, hne⟩ s.ipos
        s.toZlingRolzEncoder := by
  have hcall : ∀ d obuf, Paired text ilen pos e d obuf →
      Called text ilen kBlockSizeRolz pos d obuf s := by
    intro d obuf h
    obtain ⟨s', hrun', hcalled⟩ := h.call hlen hlt (show 3 < kBlockSizeRolz by decide) k
    rw [hrun] at hrun'
    rwa [Option.some.inj hrun']
  have hcalled := hcall d obuf h
  obtain ⟨items, hvalid, hcodes, hsize⟩ := hcalled.items
  have hitems : items.length ≤ s.obuf.length := hcodes ▸ length_le_flatMap_codes items
  obtain ⟨scaling1, scaling2, t, htables, hblock, ht⟩ :=
    exists_blockTables pq hvalid (hitems.trans hcalled.length_le)
  have hlength := htables.length_le (hcodes ▸ hcalled.length_le)
  rw [← hcodes] at hblock
  refine ⟨_, hblock, fun hne => ⟨rfl, hcalled.forward, hcalled.ipos_le, hcalled.length_le, hlength,
    fun d obuf h bytes tbuf hbytes => ?_, ?_, fun hshort => ?_⟩⟩
  · obtain ⟨tbuf', hdecode, hreads⟩ := htables.decodes ht hbytes tbuf
    rw [← hcodes] at hdecode hreads
    obtain ⟨d', hrun', hopos, hpaired⟩ := (hcall d obuf h).decodes tbuf' hreads
    exact ⟨tbuf', d', hdecode, hrun', hopos, hpaired⟩
  · have hbits := htables.bits_le_bytes
    have hbytes := htables.length_encodeItems
    have htable : kHuffmanCodes1 / 2 + kHuffmanCodes2 / 2 = 273 := rfl
    simp only
    omega
  · have hfull := hcalled.full hshort
    have hspan : s.obuf.length ≤ (items.map ZlingItem.size).sum := by
      rw [hcodes]
      exact length_flatMap_codes_le hvalid
    omega

/-- What a round of the loop over the blocks does. -/
structure MadeBlock (level : ℤ) (text : Mem) (ilen : ℕ) (s s' : ZlingEncode) (b : ZlingBlock) :
    Prop where
  blocks_eq : s'.blocks = s.blocks ++ [b]
  makes : MakesBlock text ilen s.encpos s.lzencoder b s'.encpos s'.lzencoder
  currentLevel_eq : s'.currentLevel = 0 ∨ s'.currentLevel = level

variable (level) in
/-- A block is made. -/
theorem ZlingEncode.round_spec {s : ZlingEncode} (h : Paired text ilen s.encpos s.lzencoder d obuf)
    (hlen : ilen ≤ 2 ^ 24) (hlt : s.encpos < ilen) (hcur : rolzLevel s.currentLevel ≠ none) :
    ∃ s' b, s.round pq level text ilen = some s' ∧ MadeBlock level text ilen s s' b := by
  obtain ⟨k, hk⟩ := Option.ne_none_iff_exists'.mp hcur
  obtain ⟨r, hrun, hcalled⟩ := h.call hlen hlt (show 3 < kBlockSizeRolz by decide) k
  obtain ⟨bytes, hblock, hmakes⟩ := Called.makesBlock pq h hlen hlt hrun
  have hencode : s.lzencoder.encode s.currentLevel text ilen kBlockSizeRolz s.encpos =
      some ((r.obuf.length : ℤ), r) := by
    simp only [ZlingRolzEncoder.encode, hk, hrun, Option.map_some]
  have hle : r.obuf.length ≤ 262144 := hcalled.length_le
  have hrlen : toUInt32 (r.obuf.length : ℤ) = r.obuf.length := by
    simp only [toUInt32]
    omega
  have hround : s.round pq level text ilen = some
      ⟨r.toZlingRolzEncoder,
        if 20 * bytes.length > 19 * (r.ipos - s.encpos + 1) then 0 else level, r.ipos,
        s.blocks ++ [⟨r.ipos, r.obuf.length, bytes, zlingEncodeBlock_ne_nil hblock⟩]⟩ := by
    simp only [ZlingEncode.round, hencode, hrlen]
    split
    · rename_i hnone
      rw [hblock] at hnone
      cases hnone
    · rename_i bytes' hsome
      obtain rfl : bytes = bytes' := Option.some.inj (hblock.symm.trans hsome)
      rfl
  refine ⟨_, _, hround, rfl, hmakes _, ?_⟩
  simp only
  split
  · exact Or.inl rfl
  · exact Or.inr rfl

/-- What the loop over the blocks of a buffer does from `s` on. -/
structure MadeBlocks (text : Mem) (ilen : ℕ) (s t : ZlingEncode) (more : List ZlingBlock) :
    Prop where
  blocks_eq : t.blocks = s.blocks ++ more
  makes : MakesBlocks text ilen s.encpos s.lzencoder more ilen t.lzencoder
  level : rolzLevel t.currentLevel ≠ none

/-- A block in front. -/
theorem MadeBlock.cons {s s' t : ZlingEncode} {b : ZlingBlock} {more : List ZlingBlock}
    (h : MadeBlock level text ilen s s' b) (ht : MadeBlocks text ilen s' t more) :
    MadeBlocks text ilen s t (b :: more) where
  blocks_eq := by rw [ht.blocks_eq, h.blocks_eq, List.append_assoc, List.singleton_append]
  makes := .cons h.makes ht.makes
  level := ht.level

/-- The loop ends, and the blocks are those of the buffer. -/
theorem ZlingEncode.run (hlevel : rolzLevel level ≠ none) {s : ZlingEncode}
    (h : Paired text ilen s.encpos s.lzencoder d obuf) (hlen : ilen ≤ 2 ^ 24)
    (hle : s.encpos ≤ ilen) (hcur : rolzLevel s.currentLevel ≠ none) {fuel : ℕ}
    (hfuel : ilen - s.encpos < fuel) :
    ∃ t more, loopTo (ZlingEncode.step pq level text ilen) fuel s = some (some t) ∧
      MadeBlocks text ilen s t more := by
  let I : ZlingEncode → Prop := fun s => s.encpos ≤ ilen ∧ rolzLevel s.currentLevel ≠ none ∧
    ∃ d obuf, Paired text ilen s.encpos s.lzencoder d obuf
  let P : ZlingEncode → Option ZlingEncode → Prop := fun s r =>
    ∃ t more, r = some t ∧ MadeBlocks text ilen s t more
  have hnext : ∀ s s', I s → s.step pq level text ilen = .inl s' →
      (I s' ∧ ilen - s'.encpos < ilen - s.encpos) ∧ ∀ r, P s' r → P s r := by
    rintro s s' ⟨hle, hcur, d, obuf, h⟩ hstep
    by_cases hlt : s.encpos < ilen
    · obtain ⟨s₁, b, hround, hmade⟩ := ZlingEncode.round_spec pq level h hlen hlt hcur
      simp only [ZlingEncode.step, if_pos hlt, hround, Sum.inl.injEq] at hstep
      obtain rfl := hstep
      have hforward := hmade.makes.pos_lt
      obtain ⟨tbuf, d', -, -, -, hpaired⟩ := hmade.makes.decodes d obuf h (Mem.ofList b.obuf)
        (fun _ => 0) fun i _ => rfl
      refine ⟨⟨⟨hmade.makes.pos_le, ?_, _, _, hpaired⟩, by omega⟩, ?_⟩
      · cases hmade.currentLevel_eq with
        | inl hzero =>
          rw [hzero]
          decide
        | inr heq => rwa [heq]
      · rintro r ⟨t, more, rfl, ht⟩
        exact ⟨t, b :: more, rfl, hmade.cons ht⟩
    · simp only [ZlingEncode.step, if_neg hlt, reduceCtorEq] at hstep
  have hreturn : ∀ s r, I s → s.step pq level text ilen = .inr r → P s r := by
    rintro s r ⟨hle, hcur, d, obuf, h⟩ hstep
    by_cases hlt : s.encpos < ilen
    · obtain ⟨s₁, b, hround, -⟩ := ZlingEncode.round_spec pq level h hlen hlt hcur
      simp only [ZlingEncode.step, if_pos hlt, hround, reduceCtorEq] at hstep
    · simp only [ZlingEncode.step, if_neg hlt, Sum.inr.injEq] at hstep
      obtain rfl := hstep
      have hend : s.encpos = ilen := by omega
      refine ⟨s, [], rfl, (List.append_nil _).symm, ?_, hcur⟩
      rw [hend]
      exact .nil ilen _
  obtain ⟨r, ⟨t, more, rfl, ht⟩, hrun⟩ := total_loopTo_rel (fun s => ilen - s.encpos) hnext hreturn
    (show I s from ⟨hle, hcur, d, obuf, h⟩)
  exact ⟨t, more, hrun fuel hfuel, ht⟩

end Block

/-! ## The buffers -/

section Buffers

variable (pq : PriorityQueue (HuffmanTree ℕ) HuffmanTree.weight) {level : ℤ}

/-- What a round of the loop of `Encode` does. -/
structure MadeBuffer (s s' : ZlingBuffers) (text : Mem) (ilen : ℕ) (blocks : List ZlingBlock) :
    Prop where
  inputs_eq : s'.inputs = s.inputs ++ [blocks]
  rest_eq : s.inputter.rest = text.bytes 0 ilen ++ s'.inputter.rest
  pos : 0 < ilen
  le : ilen ≤ kBlockSizeIn
  full : s'.inputter.rest ≠ [] → ilen = kBlockSizeIn
  makes : MakesBlocks text ilen 0 s.lzencoder.reset blocks ilen s'.lzencoder
  level : rolzLevel s'.currentLevel ≠ none

/-- The next buffer is filled, and made into blocks. -/
theorem ZlingBuffers.round_spec (hlevel : rolzLevel level ≠ none) {s : ZlingBuffers}
    (hend : s.inputter.rest ≠ []) (hcur : rolzLevel s.currentLevel ≠ none) :
    ∃ s' text ilen blocks, s.round pq level = some s' ∧ MadeBuffer s s' text ilen blocks := by
  obtain ⟨text, r', hfill, hbytes, -, hrest⟩ := s.inputter.fill_spec
    (show 0 < kBlockSizeIn by decide) s.ibuf kBlockSizeIn
  generalize hilen : min kBlockSizeIn s.inputter.rest.length = ilen at hfill hbytes
  have hpos : 0 < s.inputter.rest.length := List.length_pos_iff.mpr hend
  have hsize : kBlockSizeIn = 2 ^ 24 := rfl
  have hpaired : Paired text ilen 0 s.lzencoder.reset
      (ZlingRolzDecoder.reset ⟨fun _ => .reset, fun c => ⟨(s.lzencoder.mtf c).table⟩⟩) text :=
    paired_reset (fun _ => rfl) text ilen text
  let start : ZlingEncode := ⟨s.lzencoder.reset, s.currentLevel, 0, []⟩
  obtain ⟨t, more, hrun, hmade⟩ := ZlingEncode.run pq hlevel (s := start) hpaired (by omega)
    (Nat.zero_le ilen) hcur (show ilen - 0 < 2 * ilen + 1 by omega)
  have hblocks : t.blocks = more := hmade.blocks_eq
  have htext : text.bytes 0 ilen = s.inputter.rest.take kBlockSizeIn := by
    refine List.ext_getElem (by rw [Mem.length_bytes, List.length_take, hilen]) fun i hi hi' => ?_
    rw [Mem.length_bytes] at hi
    have hbyte := hbytes i hi
    rw [List.getD_eq_getElem _ _ (by omega)] at hbyte
    simpa [Mem.bytes] using hbyte
  refine ⟨⟨r', text, t.lzencoder, t.currentLevel, s.inputs ++ [t.blocks]⟩, text, ilen, more, ?_, ?_⟩
  · simp only [ZlingBuffers.round, hfill, start, hrun]
  · refine ⟨by rw [hblocks], ?_, by omega, by omega, fun hmore => ?_, hmade.makes, hmade.level⟩
    · rw [htext, hrest, List.take_append_drop]
    · rw [hrest, ne_eq, List.drop_eq_nil_iff] at hmore
      omega

/-- What the loop of `Encode` does from `s` on. -/
structure MadeStream (s t : ZlingBuffers) (more : List (List ZlingBlock)) : Prop where
  inputs_eq : t.inputs = s.inputs ++ more
  makes : MakesStream s.inputter.rest s.lzencoder more

/-- A buffer in front. -/
theorem MadeBuffer.cons {s s' t : ZlingBuffers} {text : Mem} {ilen : ℕ} {blocks : List ZlingBlock}
    {more : List (List ZlingBlock)} (h : MadeBuffer s s' text ilen blocks)
    (ht : MadeStream s' t more) : MadeStream s t (blocks :: more) where
  inputs_eq := by rw [ht.inputs_eq, h.inputs_eq, List.append_assoc, List.singleton_append]
  makes := by
    rw [h.rest_eq]
    exact .cons h.pos h.le h.full h.makes ht.makes

/-- Every input is made into blocks. -/
theorem zlingBlocks_spec (hlevel : rolzLevel level ≠ none) (ibuf : Mem) (inputter : MemInputter) :
    ∃ inputs, zlingBlocks pq level ibuf inputter = some inputs ∧
      MakesStream inputter.rest .init inputs := by
  let I : ZlingBuffers → Prop := fun s => rolzLevel s.currentLevel ≠ none
  let P : ZlingBuffers → Option ZlingBuffers → Prop := fun s r =>
    ∃ t more, r = some t ∧ MadeStream s t more
  let measure : ZlingBuffers → ℕ := fun s => s.inputter.rest.length
  have hnext : ∀ s s', I s → s.step pq level = .inl s' →
      (I s' ∧ measure s' < measure s) ∧ ∀ r, P s' r → P s r := by
    intro s s' hcur hstep
    by_cases hend : s.inputter.rest = []
    · simp only [ZlingBuffers.step, if_pos (s.inputter.isEnd_iff.mpr hend), reduceCtorEq] at hstep
    · obtain ⟨s₁, text, ilen, blocks, hround, hmade⟩ :=
        ZlingBuffers.round_spec pq hlevel hend hcur
      simp only [ZlingBuffers.step, if_neg fun h => hend (s.inputter.isEnd_iff.mp h), hround,
        Sum.inl.injEq] at hstep
      obtain rfl := hstep
      refine ⟨⟨hmade.level, ?_⟩, ?_⟩
      · have hpos := hmade.pos
        simp only [measure, hmade.rest_eq, List.length_append, Mem.length_bytes]
        omega
      · rintro r ⟨t, more, rfl, ht⟩
        exact ⟨t, blocks :: more, rfl, hmade.cons ht⟩
  have hreturn : ∀ s r, I s → s.step pq level = .inr r → P s r := by
    intro s r hcur hstep
    by_cases hend : s.inputter.rest = []
    · simp only [ZlingBuffers.step, if_pos (s.inputter.isEnd_iff.mpr hend), Sum.inr.injEq] at hstep
      obtain rfl := hstep
      refine ⟨s, [], rfl, (List.append_nil _).symm, ?_⟩
      rw [hend]
      exact .nil _
    · obtain ⟨s₁, text, ilen, blocks, hround, -⟩ := ZlingBuffers.round_spec pq hlevel hend hcur
      simp only [ZlingBuffers.step, if_neg fun h => hend (s.inputter.isEnd_iff.mp h), hround,
        reduceCtorEq] at hstep
  let start : ZlingBuffers := ⟨inputter, ibuf, .init, level, []⟩
  obtain ⟨r, ⟨t, more, rfl, ht⟩, hrun⟩ := total_loopTo_rel measure hnext hreturn
    (show I start from hlevel)
  have hfuel : measure start < inputter.mBuflen + 1 := by
    simp only [measure, start, inputter.length_rest]
    omega
  have hinputs : t.inputs = more := ht.inputs_eq
  refine ⟨more, ?_, ht.makes⟩
  simp only [zlingBlocks, start] at hrun ⊢
  simp only [hrun _ hfuel, hinputs]

end Buffers

/-! ## The sizes of the buffers -/

/-- What `Encode` and `Decode` allocate is enough for the block. -/
structure ZlingBlock.Fits (b : ZlingBlock) : Prop where
  encpos_le : b.encpos ≤ kBlockSizeIn
  rlen_le : b.rlen ≤ kBlockSizeRolz
  olen_le : b.obuf.length ≤ kBlockSizeHuffman

/-- The blocks of a buffer of `ilen` bytes go forward to its end, and each of them fits. -/
structure FitBlocks (ilen : ℕ) (blocks : List ZlingBlock) : Prop where
  forward : (0 :: blocks.map ZlingBlock.encpos).Pairwise (· < ·)
  last : (0 :: blocks.map ZlingBlock.encpos).getLast (List.cons_ne_nil _ _) = ilen
  fits : ∀ b ∈ blocks, b.Fits

section Fit

variable {text : Mem} {ilen pos pos' : ℕ} {e e' : ZlingRolzEncoder} {blocks : List ZlingBlock}

theorem MakesBlocks.forward (h : MakesBlocks text ilen pos e blocks pos' e') :
    (pos :: blocks.map ZlingBlock.encpos).Pairwise (· < ·) := by
  induction h with
  | nil pos e => exact List.pairwise_singleton _ _
  | @cons pos pos₁ pos' e e₁ e' b blocks hb _ ih =>
    have hlt := hb.pos_lt
    rw [List.map_cons, hb.encpos_eq]
    refine List.pairwise_cons.mpr ⟨fun p hp => ?_, ih⟩
    cases List.mem_cons.mp hp with
    | inl heq => rwa [heq]
    | inr hmem => exact hlt.trans ((List.pairwise_cons.mp ih).1 p hmem)

theorem MakesBlocks.last (h : MakesBlocks text ilen pos e blocks pos' e') :
    (pos :: blocks.map ZlingBlock.encpos).getLast (List.cons_ne_nil _ _) = pos' := by
  induction h with
  | nil pos e => rfl
  | cons hb _ ih =>
    simp only [List.map_cons, hb.encpos_eq]
    rw [List.getLast_cons (List.cons_ne_nil _ _)]
    exact ih

theorem MakesBlocks.fits (h : MakesBlocks text ilen pos e blocks pos' e')
    (hlen : ilen ≤ kBlockSizeIn) : ∀ b ∈ blocks, b.Fits := by
  induction h with
  | nil pos e => exact fun b hb => absurd hb List.not_mem_nil
  | @cons pos pos₁ pos' e e₁ e' b blocks hb _ ih =>
    intro b' hmem
    cases List.mem_cons.mp hmem with
    | inl heq =>
      rw [heq]
      exact ⟨hb.encpos_eq ▸ hb.pos_le.trans hlen, hb.rlen_le, hb.olen_le⟩
    | inr hmem => exact ih b' hmem

/-- The buffers are those of the input, cut after every `kBlockSizeIn` bytes. -/
theorem MakesStream.fit {input : List UInt8} {inputs : List (List ZlingBlock)}
    (h : MakesStream input e inputs) :
    inputs.length = (input.length + (kBlockSizeIn - 1)) / kBlockSizeIn ∧
      ∀ i (hi : i < inputs.length),
        FitBlocks (min kBlockSizeIn (input.length - kBlockSizeIn * i)) inputs[i] := by
  have hin : kBlockSizeIn = 16777216 := rfl
  induction h with
  | nil e => exact ⟨by simp [hin], fun i hi => absurd hi (Nat.not_lt_zero i)⟩
  | @cons text ilen e e' blocks input inputs hpos hle hfull hblocks _ ih =>
    -- only the last buffer is not a full one
    have hshort : ilen = kBlockSizeIn ∨ input.length = 0 := by
      by_cases hlast : input = []
      · exact Or.inr (by rw [hlast, List.length_nil])
      · exact Or.inl (hfull hlast)
    simp only [List.length_cons, List.length_append, Mem.length_bytes]
    refine ⟨?_, fun i hi => ?_⟩
    · have hcount := ih.1
      rw [hin] at hshort hcount ⊢
      omega
    · cases i with
      | zero =>
        have hilen : min kBlockSizeIn (ilen + input.length - kBlockSizeIn * 0) = ilen := by omega
        rw [hilen]
        exact ⟨hblocks.forward, hblocks.last, hblocks.fits hle⟩
      | succ i =>
        have hmore : i < inputs.length := Nat.lt_of_succ_lt_succ hi
        have hrest : min kBlockSizeIn (ilen + input.length - kBlockSizeIn * (i + 1)) =
            min kBlockSizeIn (input.length - kBlockSizeIn * i) := by
          have hcount := ih.1
          rw [hin] at hshort hcount ⊢
          omega
        rw [hrest]
        exact ih.2 i hmore

/-- At each level every input is cut into buffers of `kBlockSizeIn` bytes, and every block of a
buffer fits where `Encode` puts it and `Decode` reads it. -/
theorem zlingBlocks_fit (pq : PriorityQueue (HuffmanTree ℕ) HuffmanTree.weight) {level : ℤ}
    (hlevel : rolzLevel level ≠ none) (ibuf mem : Mem) (buffer buflen : ℕ) :
    ∃ inputs, zlingBlocks pq level ibuf (.init mem buffer buflen) = some inputs ∧
      inputs.length = (buflen + (kBlockSizeIn - 1)) / kBlockSizeIn ∧
      ∀ i (hi : i < inputs.length),
        FitBlocks (min kBlockSizeIn (buflen - kBlockSizeIn * i)) inputs[i] := by
  obtain ⟨inputs, hrun, hmakes⟩ := zlingBlocks_spec pq hlevel ibuf (.init mem buffer buflen)
  have hfit := hmakes.fit
  rw [MemInputter.length_rest] at hfit
  exact ⟨inputs, hrun, hfit⟩

/-- Five bytes at the lowest level. -/
theorem zlingBlocks_fit_five :
    ∃ inputs, zlingBlocks (.sorted _) 0 (fun _ => 0) (.init (fun _ => 7) 0 5) = some inputs ∧
      inputs.length = 1 ∧ ∀ i (hi : i < inputs.length),
        FitBlocks (min kBlockSizeIn (5 - kBlockSizeIn * i)) inputs[i] :=
  zlingBlocks_fit (.sorted _) (by decide) (fun _ => 0) (fun _ => 7) 0 5

end Fit

/-! ## The size of the stream -/

/-- The bytes of a block. -/
def ZlingBlock.bytes (b : ZlingBlock) : List UInt8 := b.puts.flatMap ZlingPut.bytes

theorem ZlingBlock.length_bytes (b : ZlingBlock) : b.bytes.length = 13 + b.obuf.length := by
  simp only [bytes, puts, List.flatMap_cons, List.flatMap_nil, List.append_nil, List.length_append,
    bytes_char, bytes_block, length_bytes_uint32, List.length_singleton]
  omega

/-- The stream, buffer by buffer. -/
theorem zlingStream_cons (blocks : List ZlingBlock) (inputs : List (List ZlingBlock)) :
    zlingStream (blocks :: inputs) =
      blocks.flatMap ZlingBlock.bytes ++ 0 :: zlingStream inputs := by
  have hblocks : (blocks.flatMap ZlingBlock.puts).flatMap ZlingPut.bytes =
      blocks.flatMap ZlingBlock.bytes := List.flatMap_assoc
  simp only [zlingStream, encodePuts, List.flatMap_cons, List.flatMap_append, hblocks, bytes_char,
    List.append_assoc, List.singleton_append]
  rfl

section Size

variable {text : Mem} {ilen pos pos' : ℕ} {e e' : ZlingRolzEncoder} {blocks : List ZlingBlock}

theorem MakesBlocks.le (h : MakesBlocks text ilen pos e blocks pos' e') : pos ≤ pos' := by
  induction h with
  | nil pos e => exact le_rfl
  | cons hb _ ih => exact hb.pos_lt.le.trans ih

/-- Blocks that are full make up for their headers, and only the last one is not full. -/
theorem MakesBlocks.length_le (h : MakesBlocks text ilen pos e blocks pos' e') :
    8280 * (blocks.flatMap ZlingBlock.bytes).length ≤ 9585 * (pos' - pos) + 8280 * 287 := by
  induction h with
  | nil pos e => simp
  | @cons pos pos₁ pos' e e₁ e' b blocks hb hblocks ih =>
    have hlt := hb.pos_lt
    have hle := hblocks.le
    have hsize := hb.size_lt
    have hrolz : kBlockSizeRolz = 262144 := rfl
    rw [List.flatMap_cons, List.length_append, b.length_bytes]
    cases hblocks with
    | nil => simp only [List.flatMap_nil, List.length_nil]; omega
    | cons hb' _ =>
      have hmore := hb'.pos_lt
      have hend := hb'.pos_le
      have hlarge := hb.full (by omega)
      omega

theorem MakesStream.eq_nil {inputs : List (List ZlingBlock)} {e : ZlingRolzEncoder}
    (h : MakesStream [] e inputs) : inputs = [] := by
  generalize hnil : ([] : List UInt8) = input at h
  cases h with
  | nil => rfl
  | cons hpos _ _ _ _ =>
    have hlen := congrArg List.length hnil
    rw [List.length_append, Mem.length_bytes, List.length_nil] at hlen
    omega

/-- Buffers that are full make up for their ends. -/
theorem MakesStream.length_le {input : List UInt8} {inputs : List (List ZlingBlock)}
    (h : MakesStream input e inputs) :
    8280 * (zlingStream inputs).length ≤ 9586 * input.length + 8280 * 288 := by
  induction h with
  | nil e => exact Nat.zero_le _
  | @cons text ilen e e' blocks input inputs hpos hle hfull hblocks hinput ih =>
    have hbuffer := hblocks.length_le
    have hin : kBlockSizeIn = 16777216 := rfl
    rw [zlingStream_cons, List.length_append, List.length_cons, List.length_append,
      Mem.length_bytes]
    by_cases hlast : input = []
    · subst hlast
      rw [hinput.eq_nil]
      simp only [zlingStream, encodePuts, List.flatMap_nil, List.length_nil]
      omega
    · have hilen := hfull hlast
      omega

end Size

/-- The most that is needed for the stream of `n` bytes. -/
def zlingGrow (n : ℕ) : ℕ := n + n / 6 + 289

theorem MakesStream.length_le_grow {input : List UInt8} {inputs : List (List ZlingBlock)}
    {e : ZlingRolzEncoder} (h : MakesStream input e inputs) :
    (zlingStream inputs).length ≤ zlingGrow input.length := by
  have hsize := h.length_le
  simp only [zlingGrow]
  omega

end Lzbench
