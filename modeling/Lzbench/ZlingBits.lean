import Lzbench.Lib.BitBuffer
import Lzbench.Lib.Memory
import Lzbench.ZlingHuffman
import Lzbench.ZlingLz

/-!
# The blocks of zling

The codes of the ROLZ coder are written with two Huffman codes, one for the codes themselves and
one for the upper parts of the indices of matches.  A block begins with the lengths of both, two
in a byte.

Codes are looked up in a table for the first ten bits, and where they are longer in one for
fifteen.  Behind the end of a block are the bytes of an older one, of which the decoder puts some
into its buffer.

## Main definitions

* `matchidxCode`, `matchidxBase`, `matchidxBitlen` — the parts of an index.
* `zlingEncodeBlock` — the bytes of a block.
* `zlingDecodeBlock` — the codes of one.
* `BlockTables.decodes` — they come back.
-/

namespace Lzbench

open Imperative

/-! ## Tables -/

/-- `matchidx_bitlen`. -/
def matchidxBitlen : List ℕ :=
  [0, 0, 0, 0, 1, 1, 2, 2, 3, 3, 4, 4, 5, 5, 6, 6,
   7, 7, 8, 8, 8, 8, 8, 8, 8, 8, 8, 8, 8, 8, 8, 8]

/-- `matchidx_base`. -/
def matchidxBase : List ℕ :=
  [0, 1, 2, 3, 4, 6, 8, 12, 16, 24, 32, 48, 64, 96, 128, 192,
   256, 384, 512, 768, 1024, 1280, 1536, 1792, 2048, 2304, 2560, 2816, 3072, 3328, 3584, 3840]

/-- `matchidx_code`: the code before the first one whose base is larger. -/
def matchidxCode (idx : ℕ) : ℕ := matchidxBase.findIdx (fun base => idx < base) - 1

/-- Every base is followed by the next one, and the last by the size of a bucket. -/
theorem matchidxBase_next : ∀ code < 32, (matchidxBase ++ [kBucketItemSize]).getD (code + 1) 0 =
    matchidxBase.getD code 0 + 2 ^ matchidxBitlen.getD code 0 := by decide +kernel

/-- An index is a base with a few bits. -/
theorem matchidxCode_spec {idx : ℕ} (hidx : idx < kBucketItemSize) :
    matchidxCode idx < 32 ∧ matchidxBase.getD (matchidxCode idx) 0 ≤ idx ∧
      idx - matchidxBase.getD (matchidxCode idx) 0 <
        2 ^ matchidxBitlen.getD (matchidxCode idx) 0 := by
  have hlen : matchidxBase.length = 32 := rfl
  have hle : matchidxBase.findIdx (fun base => idx < base) ≤ 32 := List.findIdx_le_length
  have hbefore : ∀ code < matchidxBase.findIdx (fun base => idx < base),
      matchidxBase.getD code 0 ≤ idx := by
    intro code hcode
    have hnot := List.not_of_lt_findIdx hcode
    rw [List.getD_eq_getElem _ _ (by omega)]
    simpa using hnot
  have hafter : idx < (matchidxBase ++ [kBucketItemSize]).getD
      (matchidxBase.findIdx (fun base => idx < base)) 0 := by
    by_cases hlast : matchidxBase.findIdx (fun base => idx < base) < 32
    · rw [← hlen] at hlast
      have hfound := @List.findIdx_getElem _ (fun base => decide (idx < base)) matchidxBase hlast
      rw [List.getD_append _ _ _ _ hlast, List.getD_eq_getElem _ _ hlast]
      simpa using hfound
    · rw [show matchidxBase.findIdx (fun base => idx < base) = 32 by omega]
      exact hidx
  have hpos : 0 < matchidxBase.findIdx (fun base => idx < base) := by
    by_contra hzero
    rw [Nat.eq_zero_of_not_pos hzero] at hafter
    exact absurd hafter (Nat.not_lt_zero idx)
  have hnext := matchidxBase_next (matchidxCode idx) (by rw [matchidxCode]; omega)
  have hbase := hbefore (matchidxCode idx) (by rw [matchidxCode]; omega)
  rw [show matchidxCode idx + 1 = matchidxBase.findIdx (fun base => idx < base) by
    rw [matchidxCode]; omega] at hnext
  rw [hnext] at hafter
  refine ⟨by rw [matchidxCode]; omega, hbase, by omega⟩

def kHuffmanCodes1 : ℕ := 258 + (kMatchMaxLen - kMatchMinLen + 1)
def kHuffmanCodes2 : ℕ := 32
def kHuffmanMaxLen1 : ℕ := 15
def kHuffmanMaxLen2 : ℕ := 8
def kHuffmanMaxLen1Fast : ℕ := 10

/-! ## Encoding -/

/-- `ZlingCodebuf`. -/
abbrev ZlingCodebuf := BitBuffer 64

/-- The codes from `res.tbuf[i]` on, with `res.tbuf[++i]` behind those of matches. -/
def takeItems : List ℕ → List ZlingItem
  | [] => []
  | [c] => [(c, none)]
  | c :: idx :: tbuf =>
    if 258 ≤ c then (c, some idx) :: takeItems tbuf else (c, none) :: takeItems (idx :: tbuf)

/-- `table[i] += 1`. -/
def countOne (table : Array ℕ) (i : ℕ) : Array ℕ := table.setIfInBounds i (table.getD i 0 + 1)

/-- `freq_table1`. -/
def freqTable1 (items : List ZlingItem) : Array ℕ :=
  items.foldl (fun t item => countOne t item.1) (.replicate kHuffmanCodes1 0)

/-- `freq_table2`. -/
def freqTable2 (items : List ZlingItem) : Array ℕ :=
  items.foldl (fun t item => item.2.elim t fun idx => countOne t (matchidxCode idx))
    (.replicate kHuffmanCodes2 0)

/-- The lengths and the codes of both. -/
structure HuffmanTables where
  lengthTable1 : Array ℕ
  lengthTable2 : Array ℕ
  encodeTable1 : Array ℕ
  encodeTable2 : Array ℕ

/-- The tables for some lengths. -/
def HuffmanTables.ofLengths (lengthTable1 lengthTable2 : Array ℕ) : HuffmanTables where
  lengthTable1 := lengthTable1
  lengthTable2 := lengthTable2
  encodeTable1 := zlingMakeEncodeTable lengthTable1 kHuffmanCodes1 kHuffmanMaxLen1
  encodeTable2 := zlingMakeEncodeTable lengthTable2 kHuffmanCodes2 kHuffmanMaxLen2

/-- The lengths, two in a byte. -/
def lengthBytes (lengthTable : Array ℕ) (maxCodes : ℕ) : List UInt8 :=
  (List.range (maxCodes / 2)).map fun i =>
    .ofNat (lengthTable.getD (2 * i) 0 * 16 + lengthTable.getD (2 * i + 1) 0)

/-- `res.obuf[opos++] = codebuf.Output(8)`. -/
def putByte (s : ZlingCodebuf × List UInt8) : ZlingCodebuf × List UInt8 :=
  ((s.1.output 8).2, s.2 ++ [.ofNat (s.1.output 8).1])

/-- The code of an item is put into the buffer. -/
def inputItem (t : HuffmanTables) (codebuf : ZlingCodebuf) (item : ZlingItem) : ZlingCodebuf :=
  let codebuf := codebuf.input (t.encodeTable1.getD item.1 0) (t.lengthTable1.getD item.1 0)
  match item.2 with
  | none => codebuf
  | some idx =>
    let code := matchidxCode idx
    (codebuf.input (t.encodeTable2.getD code 0) (t.lengthTable2.getD code 0)).input
      (idx - matchidxBase.getD code 0) (matchidxBitlen.getD code 0)

/-- An item is encoded; four bytes are written when there are so many. -/
def encodeItem (t : HuffmanTables) (s : ZlingCodebuf × List UInt8) (item : ZlingItem) :
    ZlingCodebuf × List UInt8 :=
  let codebuf := inputItem t s.1 item
  if 32 ≤ codebuf.len then putByte (putByte (putByte (putByte (codebuf, s.2)))) else (codebuf, s.2)

/-- `while (codebuf.GetLength() > 0)`, for at most `fuel` bytes; every byte takes a bit or
more. -/
def flushBytes : ℕ → ZlingCodebuf × List UInt8 → List UInt8
  | 0, s => s.2
  | fuel + 1, s => if 0 < s.1.len then flushBytes fuel (putByte s) else s.2

/-- The bytes of a block, with the tables. -/
def encodeItems (t : HuffmanTables) (items : List ZlingItem) : List UInt8 :=
  let obuf := lengthBytes t.lengthTable1 kHuffmanCodes1 ++ lengthBytes t.lengthTable2 kHuffmanCodes2
  let s := items.foldl (encodeItem t) (.empty, obuf)
  flushBytes s.1.len s

/-- The part of `Encode` that makes the bytes of a block from the codes. -/
def zlingEncodeBlock (pq : PriorityQueue (HuffmanTree ℕ) HuffmanTree.weight) (tbuf : List ℕ) :
    Option (List UInt8) :=
  let items := takeItems tbuf
  match zlingMakeLengthTable pq (freqTable1 items) kHuffmanCodes1 kHuffmanMaxLen1,
    zlingMakeLengthTable pq (freqTable2 items) kHuffmanCodes2 kHuffmanMaxLen2 with
  | some lengthTable1, some lengthTable2 =>
    some (encodeItems (.ofLengths lengthTable1 lengthTable2) items)
  | _, _ => none

/-! ## Decoding -/

/-- What `Decode` throws. -/
inductive ZlingError
  | encflag
  | blockSize
  | badCode1
  | badCode2
  | badExBits
  | lzdecode
  deriving DecidableEq

/-- The text. -/
def ZlingError.what : ZlingError → String
  | encflag => "baidu::zling::Decode(): invalid encflag."
  | blockSize => "baidu::zling::Decode(): invalid block size."
  | badCode1 => "baidu::zling::Decode(): invalid huffman stream. (bad code1)"
  | badCode2 => "baidu::zling::Decode(): invalid huffman stream. (bad code2)"
  | badExBits => "baidu::zling::Decode(): invalid huffman stream. (bad ex-bits)"
  | lzdecode => "baidu::zling::Decode(): lzdecode failed."

/-- The lengths that begin at `opos`, two in a byte. -/
def readLengths (obuf : Mem) (opos maxCodes : ℕ) : Array ℕ :=
  .ofFn fun i : Fin maxCodes =>
    let byte := (obuf (opos + (i : ℕ) / 2)).toNat
    if (i : ℕ) % 2 = 0 then byte / 16 else byte % 16

/-- The tables of the decoder. -/
structure DecodeTables where
  lengthTable1 : Array ℕ
  lengthTable2 : Array ℕ
  decodeTable1 : Array ℕ
  decodeTable1Fast : Array ℕ
  decodeTable2 : Array ℕ

def HuffmanTables.decodeTables (t : HuffmanTables) : DecodeTables where
  lengthTable1 := t.lengthTable1
  lengthTable2 := t.lengthTable2
  decodeTable1 := zlingMakeDecodeTable t.lengthTable1 t.encodeTable1 kHuffmanCodes1 kHuffmanMaxLen1
  decodeTable1Fast :=
    zlingMakeDecodeTable t.lengthTable1 t.encodeTable1 kHuffmanCodes1 kHuffmanMaxLen1Fast
  decodeTable2 := zlingMakeDecodeTable t.lengthTable2 t.encodeTable2 kHuffmanCodes2 kHuffmanMaxLen2

/-- The variables of the loop. -/
structure HuffmanDecode where
  codebuf : ZlingCodebuf
  opos : ℕ
  tbuf : ℕ → ℕ
  i : ℕ

namespace HuffmanDecode

/-- `codebuf.Input(res.obuf[opos++], 8)`. -/
def inputByte (obuf : Mem) (s : HuffmanDecode) : HuffmanDecode :=
  { s with codebuf := s.codebuf.input (obuf s.opos).toNat 8, opos := s.opos + 1 }

/-- There are `32` bits in the buffer, or four bytes more are read. -/
def refill (obuf : Mem) (s : HuffmanDecode) : HuffmanDecode :=
  if s.codebuf.len < 32 then (((s.inputByte obuf).inputByte obuf).inputByte obuf).inputByte obuf
  else s

/-- The next code, or `65535`. -/
def lookup (t : DecodeTables) (codebuf : ZlingCodebuf) : ℕ :=
  let c := t.decodeTable1Fast.getD (codebuf.peek kHuffmanMaxLen1Fast) 0
  if c = 65535 then t.decodeTable1.getD (codebuf.peek kHuffmanMaxLen1) 0 else c

/-- The index behind the code of a match. -/
def index (t : DecodeTables) (s : HuffmanDecode) : Except ZlingError HuffmanDecode :=
  let code := t.decodeTable2.getD (s.codebuf.peek kHuffmanMaxLen2) 0
  if kHuffmanCodes2 ≤ code then .error .badCode2
  else
    let codebuf := (s.codebuf.output (t.lengthTable2.getD code 0)).2
    let bits := codebuf.output (matchidxBitlen.getD code 0)
    let idx := (matchidxBase.getD code 0 + bits.1) % 65536
    if kBucketItemSize ≤ idx then .error .badExBits
    else .ok { s with
      codebuf := bits.2
      tbuf := Function.update s.tbuf (s.i + 1) idx
      i := s.i + 2 }

/-- A round of the loop. -/
def round (t : DecodeTables) (obuf : Mem) (s : HuffmanDecode) : Except ZlingError HuffmanDecode :=
  let s := s.refill obuf
  let c := lookup t s.codebuf
  if kHuffmanCodes1 ≤ c then .error .badCode1
  else
    let s := { s with
      codebuf := (s.codebuf.output (t.lengthTable1.getD c 0)).2
      tbuf := Function.update s.tbuf s.i c }
    if 258 ≤ c then s.index t else .ok { s with i := s.i + 1 }

/-- The loop, for at most `fuel` rounds; every round takes a place of `tbuf`. -/
def rounds (t : DecodeTables) (obuf : Mem) (rlen : ℕ) :
    ℕ → HuffmanDecode → Except ZlingError HuffmanDecode
  | 0, s => .ok s
  | fuel + 1, s =>
    if s.i < rlen then
      match s.round t obuf with
      | .error e => .error e
      | .ok s => rounds t obuf rlen fuel s
    else .ok s

end HuffmanDecode

/-- The part of `Decode` that makes the codes from the bytes of a block. -/
def zlingDecodeBlock (obuf : Mem) (tbuf : ℕ → ℕ) (rlen : ℕ) : Except ZlingError (ℕ → ℕ) :=
  let t := (HuffmanTables.ofLengths (readLengths obuf 0 kHuffmanCodes1)
    (readLengths obuf (kHuffmanCodes1 / 2) kHuffmanCodes2)).decodeTables
  match HuffmanDecode.rounds t obuf rlen rlen
      ⟨.empty, kHuffmanCodes1 / 2 + kHuffmanCodes2 / 2, tbuf, 0⟩ with
  | .error e => .error e
  | .ok s => .ok s.tbuf

/-! ## Counting -/

/-- The items are those that the coder has made. -/
theorem takeItems_flatMap {items : List ZlingItem} (h : ∀ item ∈ items, item.Valid) :
    takeItems (items.flatMap ZlingItem.codes) = items := by
  induction items with
  | nil => rfl
  | cons item items ih =>
    have hrest := ih fun item hitem => h item (List.mem_cons_of_mem _ hitem)
    have hvalid := h item List.mem_cons_self
    rw [List.flatMap_cons]
    obtain ⟨c, idx⟩ := item
    cases idx with
    | some idx =>
      have hc : 258 ≤ c := hvalid.1
      simp only [ZlingItem.codes, Option.toList_some, List.cons_append, List.nil_append, takeItems,
        if_pos hc, hrest]
    | none =>
      have hc : ¬ 258 ≤ c := not_le.mpr hvalid
      simp only [ZlingItem.codes, Option.toList_none, List.cons_append, List.nil_append]
      cases htail : items.flatMap ZlingItem.codes with
      | nil =>
        rw [htail] at hrest
        rw [takeItems, ← hrest]
        rfl
      | cons c' tbuf =>
        rw [htail] at hrest
        rw [takeItems, if_neg hc, hrest]

/-- How often every symbol is in a list. -/
def countAll (n : ℕ) (l : List ℕ) : Array ℕ := l.foldl countOne (.replicate n 0)

theorem countAll_spec {n : ℕ} (l : List ℕ) :
    (countAll n l).size = n ∧ ∀ i, lens (countAll n l) i = if i < n then l.count i else 0 := by
  have hgen : ∀ t : Array ℕ, (l.foldl countOne t).size = t.size ∧
      ∀ i, lens (l.foldl countOne t) i = lens t i + if i < t.size then l.count i else 0 := by
    induction l with
    | nil => simp
    | cons x l ih =>
      intro t
      obtain ⟨hsize, hget⟩ := ih (countOne t x)
      have hone : (countOne t x).size = t.size := Array.size_setIfInBounds
      rw [hone] at hsize hget
      refine ⟨hsize, fun i => ?_⟩
      rw [List.foldl_cons, hget, countOne, lens, getD_setIfInBounds, List.count_cons]
      by_cases hx : x = i
      · subst hx
        by_cases hlt : x < t.size <;> simp [hlt]
        omega
      · simp [hx]
  obtain ⟨hsize, hget⟩ := hgen (.replicate n 0)
  rw [Array.size_replicate] at hsize hget
  refine ⟨hsize, fun i => ?_⟩
  rw [countAll, hget, lens_replicate, Nat.zero_add]

theorem freqTable1_eq (items : List ZlingItem) :
    freqTable1 items = countAll kHuffmanCodes1 (items.map Prod.fst) := by
  rw [freqTable1, countAll, List.foldl_map]

/-- The codes of the indices. -/
def indexCodes (items : List ZlingItem) : List ℕ :=
  items.filterMap fun item => item.2.map matchidxCode

theorem freqTable2_eq (items : List ZlingItem) :
    freqTable2 items = countAll kHuffmanCodes2 (indexCodes items) := by
  have hgen : ∀ t : Array ℕ, items.foldl (fun t item => item.2.elim t fun idx =>
      countOne t (matchidxCode idx)) t = (indexCodes items).foldl countOne t := by
    induction items with
    | nil => exact fun _ => rfl
    | cons item items ih =>
      intro t
      obtain ⟨c, idx⟩ := item
      cases idx with
      | none => exact ih t
      | some idx => exact ih _
  exact hgen _

theorem getD_freqTable1 (items : List ZlingItem) (i : ℕ) : (freqTable1 items).getD i 0 =
    if i < kHuffmanCodes1 then (items.map Prod.fst).count i else 0 := by
  rw [freqTable1_eq]
  exact (countAll_spec _).2 i

theorem getD_freqTable2 (items : List ZlingItem) (i : ℕ) : (freqTable2 items).getD i 0 =
    if i < kHuffmanCodes2 then (indexCodes items).count i else 0 := by
  rw [freqTable2_eq]
  exact (countAll_spec _).2 i

/-! ## The lengths in a block -/

theorem length_lengthBytes (table : Array ℕ) (n : ℕ) : (lengthBytes table n).length = n / 2 := by
  simp [lengthBytes]

/-- A block is at least as large as its tables. -/
theorem length_le_encodeItems (t : HuffmanTables) (items : List ZlingItem) :
    kHuffmanCodes1 / 2 + kHuffmanCodes2 / 2 ≤ (encodeItems t items).length := by
  have hflush : ∀ fuel, ∀ s : ZlingCodebuf × List UInt8,
      s.2.length ≤ (flushBytes fuel s).length := by
    intro fuel
    induction fuel with
    | zero => exact fun _ => le_rfl
    | succ fuel ih =>
      intro s
      have hrest := ih (putByte s)
      have hput : (putByte s).2.length = s.2.length + 1 := List.length_append
      rw [flushBytes]
      split <;> omega
  have hfold : ∀ l : List ZlingItem, ∀ s : ZlingCodebuf × List UInt8,
      s.2.length ≤ (l.foldl (encodeItem t) s).2.length := by
    intro l
    induction l with
    | nil => exact fun _ => le_rfl
    | cons item l ih =>
      intro s
      refine le_trans ?_ (ih (encodeItem t s item))
      simp only [encodeItem]
      split
      · simp [putByte]
      · exact le_rfl
  have hbegin := hfold items (.empty, lengthBytes t.lengthTable1 kHuffmanCodes1 ++
    lengthBytes t.lengthTable2 kHuffmanCodes2)
  rw [List.length_append, length_lengthBytes, length_lengthBytes] at hbegin
  exact hbegin.trans (hflush _ _)

theorem zlingEncodeBlock_ne_nil {pq : PriorityQueue (HuffmanTree ℕ) HuffmanTree.weight}
    {tbuf : List ℕ} {obuf : List UInt8} (h : zlingEncodeBlock pq tbuf = some obuf) : obuf ≠ [] := by
  rintro rfl
  simp only [zlingEncodeBlock] at h
  split at h
  · rename_i lengthTable1 lengthTable2 _ _
    have hlen := length_le_encodeItems (.ofLengths lengthTable1 lengthTable2) (takeItems tbuf)
    rw [Option.some.inj h] at hlen
    exact absurd hlen (by decide)
  · cases h

/-- The lengths are read back. -/
theorem readLengths_eq {table : Array ℕ} {n : ℕ} (hsize : table.size = n) (heven : n % 2 = 0)
    (hle : ∀ i, lens table i ≤ 15) {obuf : Mem} {opos : ℕ}
    (hbytes : ∀ i < n / 2, obuf (opos + i) = (lengthBytes table n).getD i 0) :
    readLengths obuf opos n = table := by
  refine Array.ext (by rw [readLengths, Array.size_ofFn, hsize]) fun i hi hi' => ?_
  rw [hsize] at hi'
  have hbyte := hbytes (i / 2) (by omega)
  rw [lengthBytes, List.getD_eq_getElem _ _ (by simp; omega), List.getElem_map,
    List.getElem_range] at hbyte
  have hhigh := hle (2 * (i / 2))
  have hlow := hle (2 * (i / 2) + 1)
  have hnat : (obuf (opos + i / 2)).toNat =
      lens table (2 * (i / 2)) * 16 + lens table (2 * (i / 2) + 1) := by
    rw [hbyte]
    simp only [lens] at hhigh hlow ⊢
    exact UInt8.toNat_ofNat_of_lt' (show _ < 256 by omega)
  have hget : lens table i = table[i] := by
    rw [lens, Array.getD_eq_getD_getElem?, Array.getElem?_eq_getElem, Option.getD_some]
  rw [← hget]
  simp only [readLengths, Array.getElem_ofFn, hnat]
  by_cases hi2 : i % 2 = 0
  · rw [if_pos hi2, show 2 * (i / 2) = i by omega] at *
    omega
  · rw [if_neg hi2, show 2 * (i / 2) + 1 = i by omega] at *
    omega

/-! ## The bits of a block -/

/-- The numbers that are put in for an item, with their lengths. -/
def itemFields (t : HuffmanTables) (item : ZlingItem) : List (ℕ × ℕ) :=
  (lens t.encodeTable1 item.1, lens t.lengthTable1 item.1) :: item.2.elim [] fun idx =>
    [(lens t.encodeTable2 (matchidxCode idx), lens t.lengthTable2 (matchidxCode idx)),
      (idx - matchidxBase.getD (matchidxCode idx) 0, matchidxBitlen.getD (matchidxCode idx) 0)]

/-- The tables have codes for the items. -/
structure HuffmanTables.CodesFor (t : HuffmanTables) (items : List ZlingItem) : Prop where
  encode1 : IsEncodeTable t.lengthTable1 kHuffmanCodes1 kHuffmanMaxLen1 t.encodeTable1
  encode2 : IsEncodeTable t.lengthTable2 kHuffmanCodes2 kHuffmanMaxLen2 t.encodeTable2
  kraft1 : kraftSum (lens t.lengthTable1) kHuffmanCodes1 kHuffmanMaxLen1 ≤ 2 ^ kHuffmanMaxLen1
  kraft2 : kraftSum (lens t.lengthTable2) kHuffmanCodes2 kHuffmanMaxLen2 ≤ 2 ^ kHuffmanMaxLen2
  le1 : ∀ i, lens t.lengthTable1 i ≤ kHuffmanMaxLen1
  le2 : ∀ i, lens t.lengthTable2 i ≤ kHuffmanMaxLen2
  valid : ∀ item ∈ items, item.Valid
  used1 : ∀ item ∈ items, 0 < lens t.lengthTable1 item.1
  used2 : ∀ item ∈ items, ∀ idx ∈ item.2, 0 < lens t.lengthTable2 (matchidxCode idx)

theorem ZlingItem.Valid.lt {item : ZlingItem} (h : item.Valid) : item.1 < kHuffmanCodes1 := by
  obtain ⟨c, idx⟩ := item
  cases idx with
  | none => exact Nat.lt_of_lt_of_le h (by decide)
  | some idx => exact h.2.1

section Fields

variable {t : HuffmanTables} {items : List ZlingItem}

theorem matchidxBitlen_le (code : ℕ) : matchidxBitlen.getD code 0 ≤ 8 := by
  by_cases hcode : code < 32
  · have hall : ∀ code < 32, matchidxBitlen.getD code 0 ≤ 8 := by decide
    exact hall code hcode
  · rw [List.getD_eq_default _ _ (not_lt.mp hcode)]
    exact Nat.zero_le 8

theorem HuffmanTables.CodesFor.fields_lt (h : t.CodesFor items) {item : ZlingItem}
    (hitem : item ∈ items) : ∀ q ∈ itemFields t item, q.1 < 2 ^ q.2 := by
  intro q hq
  have hvalid := h.valid item hitem
  have hfirst := h.encode1.lt hvalid.lt (h.used1 item hitem) (h.le1 _)
  have hused := h.used2 item hitem
  obtain ⟨c, idx⟩ := item
  cases idx with
  | none =>
    simp only [itemFields, Option.elim_none, List.mem_singleton] at hq
    exact hq ▸ hfirst
  | some idx =>
    obtain ⟨hcode, hbase, hbits⟩ := matchidxCode_spec hvalid.2.2
    simp only [itemFields, Option.elim_some, List.mem_cons, List.not_mem_nil, or_false] at hq
    obtain rfl | rfl | rfl := hq
    · exact hfirst
    · exact h.encode2.lt hcode (hused idx rfl) (h.le2 _)
    · exact hbits

/-- An item takes less than four bytes. -/
theorem HuffmanTables.CodesFor.bitLength_lt (h : t.CodesFor items) (item : ZlingItem) :
    bitLength (itemFields t item) < 32 := by
  obtain ⟨c, idx⟩ := item
  have h1 : lens t.lengthTable1 c ≤ 15 := h.le1 c
  cases idx with
  | none =>
    simp only [itemFields, Option.elim_none, bitLength_cons, bitLength_nil]
    omega
  | some idx =>
    have h2 : lens t.lengthTable2 (matchidxCode idx) ≤ 8 := h.le2 (matchidxCode idx)
    have h3 := matchidxBitlen_le (matchidxCode idx)
    simp only [itemFields, Option.elim_some, bitLength_cons, bitLength_nil]
    omega

/-- The buffer after all fields are put in. -/
theorem inputItem_eq (t : HuffmanTables) (codebuf : ZlingCodebuf) (item : ZlingItem) :
    inputItem t codebuf item = (itemFields t item).foldl (fun b q => b.input q.1 q.2) codebuf := by
  obtain ⟨c, idx⟩ := item
  cases idx <;> rfl

end Fields

section Write

variable {t : HuffmanTables} {items : List ZlingItem} {f : ℕ → Bool} {header : List UInt8}

/-- Behind the header the first `p` bits of the stream are written, up to those in the buffer. -/
structure WrittenTo (f : ℕ → Bool) (header : List UInt8) (p : ℕ)
    (s : ZlingCodebuf × List UInt8) (bytes : List UInt8) : Prop where
  obuf_eq : s.2 = header ++ bytes
  emitted : Emitted f bytes
  holds : s.1.Holds f (8 * bytes.length)
  place : 8 * bytes.length + s.1.len = p

/-- A byte of the stream is written. -/
theorem WrittenTo.putByte {p : ℕ} {s : ZlingCodebuf × List UInt8} {bytes : List UInt8}
    (h : WrittenTo f header p s bytes) (hlen : 8 ≤ s.1.len) :
    ∃ bytes', WrittenTo f header p (putByte s) bytes' ∧
      (Lzbench.putByte s).1.len = s.1.len - 8 := by
  have hplace := h.place
  refine ⟨bytes ++ [.ofNat (s.1.output 8).1], ⟨?_, ?_, ?_, ?_⟩, rfl⟩
  · simp only [Lzbench.putByte, h.obuf_eq, List.append_assoc]
  · exact h.emitted.append h.holds fun i hi hi8 => by omega
  · rw [List.length_append, List.length_singleton, Nat.mul_succ]
    exact h.holds.output 8
  · rw [List.length_append, List.length_singleton]
    simp only [Lzbench.putByte, BitBuffer.len_output]
    omega

/-- An item is written. -/
theorem WrittenTo.encodeItem (hcodes : t.CodesFor items) {p : ℕ} {s : ZlingCodebuf × List UInt8}
    {bytes : List UInt8} (h : WrittenTo f header p s bytes) (hlen : s.1.len < 32)
    {item : ZlingItem} (hspells : Spells f p (itemFields t item)) :
    ∃ bytes', WrittenTo f header (p + bitLength (itemFields t item)) (encodeItem t s item) bytes' ∧
      (Lzbench.encodeItem t s item).1.len < 32 := by
  have hplace := h.place
  have hbits := hcodes.bitLength_lt item
  rw [← hplace] at hspells
  obtain ⟨hholds, hlen'⟩ := h.holds.inputs hspells (by omega)
  rw [← inputItem_eq] at hholds hlen'
  have hput : WrittenTo f header (p + bitLength (itemFields t item))
      (inputItem t s.1 item, s.2) bytes := ⟨h.obuf_eq, h.emitted, hholds, by rw [hlen']; omega⟩
  rw [Lzbench.encodeItem]
  by_cases hfull : 32 ≤ (inputItem t s.1 item).len
  · simp only [if_pos hfull]
    obtain ⟨_, h₁, hlen₁⟩ := hput.putByte (by simp only; omega)
    obtain ⟨_, h₂, hlen₂⟩ := h₁.putByte (by rw [hlen₁]; simp only; omega)
    obtain ⟨_, h₃, hlen₃⟩ := h₂.putByte (by rw [hlen₂, hlen₁]; simp only; omega)
    obtain ⟨bytes', h₄, hlen₄⟩ := h₃.putByte (by rw [hlen₃, hlen₂, hlen₁]; simp only; omega)
    refine ⟨bytes', h₄, ?_⟩
    rw [hlen₄, hlen₃, hlen₂, hlen₁]
    simp only
    omega
  · simp only [if_neg hfull]
    exact ⟨bytes, hput, not_le.mp hfull⟩

/-- All items are written. -/
theorem WrittenTo.foldl (hcodes : t.CodesFor items) {l : List ZlingItem} {p : ℕ}
    {s : ZlingCodebuf × List UInt8} {bytes : List UInt8} (h : WrittenTo f header p s bytes)
    (hlen : s.1.len < 32) (hspells : Spells f p (l.flatMap (itemFields t))) :
    ∃ bytes', WrittenTo f header (p + bitLength (l.flatMap (itemFields t)))
      (l.foldl (Lzbench.encodeItem t) s) bytes' := by
  induction l generalizing p s bytes with
  | nil => exact ⟨bytes, h⟩
  | cons item l ih =>
    rw [List.flatMap_cons, spells_append] at hspells
    obtain ⟨bytes', h', hlen'⟩ := h.encodeItem hcodes hlen hspells.1
    obtain ⟨bytes'', h''⟩ := ih h' hlen' hspells.2
    rw [Nat.add_assoc, ← bitLength_append, ← List.flatMap_cons] at h''
    exact ⟨bytes'', h''⟩

theorem flushBytes_of_empty {s : ZlingCodebuf × List UInt8} (h : s.1.len = 0) (fuel : ℕ) :
    flushBytes fuel s = s.2 := by
  cases fuel with
  | zero => rfl
  | succ fuel => rw [flushBytes, if_neg (by omega)]

/-- What is left in the buffer is written, with zeros behind it. -/
theorem WrittenTo.flushBytes {p : ℕ} (hend : ∀ i, p ≤ i → f i = false) {fuel : ℕ}
    {s : ZlingCodebuf × List UInt8} {bytes : List UInt8} (h : WrittenTo f header p s bytes)
    (hfuel : s.1.len ≤ fuel) :
    ∃ bytes', Lzbench.flushBytes fuel s = header ++ bytes' ∧ Emitted f bytes' ∧
      p ≤ 8 * bytes'.length ∧ 8 * bytes'.length < p + 8 := by
  induction fuel generalizing s bytes with
  | zero =>
    have hplace := h.place
    exact ⟨bytes, h.obuf_eq, h.emitted, by omega, by omega⟩
  | succ fuel ih =>
    have hplace := h.place
    by_cases hempty : s.1.len = 0
    · rw [flushBytes_of_empty hempty]
      exact ⟨bytes, h.obuf_eq, h.emitted, by omega, by omega⟩
    · rw [Lzbench.flushBytes, if_pos (by omega)]
      by_cases hfull : 8 ≤ s.1.len
      · obtain ⟨bytes', h', hlen'⟩ := h.putByte hfull
        exact ih h' (by omega)
      · -- the last byte is filled with zeros
        have hlast : (Lzbench.putByte s).1.len = 0 := by
          simp only [Lzbench.putByte, BitBuffer.len_output]
          omega
        rw [flushBytes_of_empty hlast]
        refine ⟨bytes ++ [.ofNat (s.1.output 8).1], ?_, ?_, ?_, ?_⟩
        · simp only [Lzbench.putByte, h.obuf_eq, List.append_assoc]
        · exact h.emitted.append h.holds fun i hi _ => hend _ (by omega)
        · rw [List.length_append, List.length_singleton]
          omega
        · rw [List.length_append, List.length_singleton]
          omega

/-- A block is the lengths and the bits of the items. -/
theorem encodeItems_spec (hcodes : t.CodesFor items) :
    ∃ (f : ℕ → Bool) (bytes : List UInt8), Lzbench.encodeItems t items =
        lengthBytes t.lengthTable1 kHuffmanCodes1 ++ lengthBytes t.lengthTable2 kHuffmanCodes2 ++
          bytes ∧
      Spells f 0 (items.flatMap (itemFields t)) ∧ Emitted f bytes ∧
      bitLength (items.flatMap (itemFields t)) ≤ 8 * bytes.length ∧
      8 * bytes.length < bitLength (items.flatMap (itemFields t)) + 8 := by
  have hlt : ∀ q ∈ items.flatMap (itemFields t), q.1 < 2 ^ q.2 := by
    intro q hq
    obtain ⟨item, hitem, hmem⟩ := List.mem_flatMap.mp hq
    exact hcodes.fields_lt hitem q hmem
  have hspells := spells_spelled hlt
  have hend : ∀ i, bitLength (items.flatMap (itemFields t)) ≤ i →
      (spelled (items.flatMap (itemFields t))).testBit i = false := fun i hi =>
    Nat.testBit_lt_two_pow ((spelled_lt hlt).trans_le (Nat.pow_le_pow_right Nat.two_pos hi))
  have hbegin : WrittenTo (spelled (items.flatMap (itemFields t))).testBit
      (lengthBytes t.lengthTable1 kHuffmanCodes1 ++ lengthBytes t.lengthTable2 kHuffmanCodes2) 0
      (.empty, lengthBytes t.lengthTable1 kHuffmanCodes1 ++
        lengthBytes t.lengthTable2 kHuffmanCodes2) [] :=
    ⟨(List.append_nil _).symm, fun j hj => absurd hj (Nat.not_lt_zero j), BitBuffer.holds_empty _ _,
      rfl⟩
  obtain ⟨bytes, hall⟩ := hbegin.foldl hcodes (by simp) hspells
  rw [Nat.zero_add] at hall
  obtain ⟨bytes', heq, hemitted, hle, hge⟩ := hall.flushBytes hend le_rfl
  exact ⟨_, bytes', heq, hspells, hemitted, hle, hge⟩

end Write

section Read

variable {t : HuffmanTables} {items : List ZlingItem} {obuf : Mem} {start p : ℕ} {done : List ℕ}
  {s : HuffmanDecode}

/-- The first `p` bits behind `start` are read; they were those of the codes `done`. -/
structure ReadTo (obuf : Mem) (start p : ℕ) (done : List ℕ) (s : HuffmanDecode) : Prop where
  holds : s.codebuf.Holds (byteBits obuf start) p
  place : 8 * start + p + s.codebuf.len = 8 * s.opos
  i_eq : s.i = done.length
  reads : Reads s.tbuf done

theorem ReadTo.inputByte (h : ReadTo obuf start p done s) (hlen : s.codebuf.len + 8 ≤ 64) :
    ReadTo obuf start p done (s.inputByte obuf) := by
  have hplace := h.place
  refine ⟨h.holds.input (obuf s.opos).toNat_lt (fun i hi => ?_) hlen, ?_, h.i_eq, h.reads⟩
  · have hbit := byteBits_add obuf start (s.opos - start) hi
    rw [show start + (s.opos - start) = s.opos by omega] at hbit
    rw [← hbit]
    congr 2
    omega
  · simp only [HuffmanDecode.inputByte, BitBuffer.len_input]
    omega

/-- There are enough bits for an item. -/
theorem ReadTo.refill (h : ReadTo obuf start p done s) :
    ReadTo obuf start p done (s.refill obuf) ∧ 32 ≤ (s.refill obuf).codebuf.len := by
  rw [HuffmanDecode.refill]
  by_cases hlen : s.codebuf.len < 32
  · rw [if_pos hlen]
    have h₁ := h.inputByte (by omega)
    have h₂ := h₁.inputByte (by simp only [HuffmanDecode.inputByte, BitBuffer.len_input]; omega)
    have h₃ := h₂.inputByte (by simp only [HuffmanDecode.inputByte, BitBuffer.len_input]; omega)
    have h₄ := h₃.inputByte (by simp only [HuffmanDecode.inputByte, BitBuffer.len_input]; omega)
    exact ⟨h₄, by simp only [HuffmanDecode.inputByte, BitBuffer.len_input]; omega⟩
  · rw [if_neg hlen]
    exact ⟨h, not_lt.mp hlen⟩

/-- The code that comes next is found, in one of the two tables. -/
theorem lookup_eq (hcodes : t.CodesFor items) {codebuf : ZlingCodebuf} {f : ℕ → Bool}
    (hholds : codebuf.Holds f p) (hlen : 32 ≤ codebuf.len) {item : ZlingItem}
    (hitem : item ∈ items) (hspells : Spells f p (itemFields t item)) :
    HuffmanDecode.lookup t.decodeTables codebuf = item.1 := by
  have hlt := (hcodes.valid item hitem).lt
  have hsmall : item.1 ≠ 65535 := (hlt.trans (by decide : kHuffmanCodes1 < 65535)).ne
  have hbits : ∀ n ≤ 32, ∀ k < n, (codebuf.peek n).testBit k = f (p + k) := fun n hn k hk =>
    hholds.testBit_peek hk (by omega)
  have hnext := hspells.2.1
  have hused := hcodes.used1 item hitem
  have hle := hcodes.le1 item.1
  rw [HuffmanDecode.lookup]
  by_cases hshort : lens t.lengthTable1 item.1 ≤ kHuffmanMaxLen1Fast
  · have hfast := decodeTable_of_le hcodes.encode1 hcodes.kraft1
      (show kHuffmanMaxLen1Fast ≤ kHuffmanMaxLen1 by decide) (codebuf.peek_lt _)
      (hbits _ (by decide)) hlt hused hle hnext hshort
    rw [lens] at hfast
    simp only [HuffmanTables.decodeTables, hfast, if_neg hsmall]
  · have hfast := decodeTable_of_lt hcodes.encode1 hcodes.kraft1
      (show kHuffmanMaxLen1Fast ≤ kHuffmanMaxLen1 by decide) (codebuf.peek_lt _)
      (hbits _ (by decide)) hlt hused hle hnext (not_le.mp hshort)
    have hfull := decodeTable_of_le hcodes.encode1 hcodes.kraft1 le_rfl (codebuf.peek_lt _)
      (hbits _ (by decide)) hlt hused hle hnext hle
    rw [lens] at hfast hfull
    simp only [HuffmanTables.decodeTables, hfast, hfull, if_true]

/-- What has been read goes on with a code. -/
theorem Reads.push {tbuf : ℕ → ℕ} {l : List ℕ} (h : Reads tbuf l) (c : ℕ) :
    Reads (Function.update tbuf l.length c) (l ++ [c]) := by
  intro i hi
  rw [List.length_append, List.length_singleton] at hi
  by_cases hlast : i = l.length
  · rw [hlast, Function.update_self, List.getD_append_right _ _ _ _ le_rfl, Nat.sub_self,
      List.getD_cons_zero]
  · rw [Function.update_of_ne hlast, List.getD_append _ _ _ _ (by omega)]
    exact h i (by omega)

/-- Bits are taken from the buffer. -/
theorem ReadTo.output (h : ReadTo obuf start p done s) {n : ℕ} (hn : n ≤ s.codebuf.len) :
    ReadTo obuf start (p + n) done { s with codebuf := (s.codebuf.output n).2 } := by
  have hplace := h.place
  refine ⟨h.holds.output n, ?_, h.i_eq, h.reads⟩
  simp only [BitBuffer.len_output]
  omega

/-- The index of a match is read behind its code. -/
theorem ReadTo.index (hcodes : t.CodesFor items) {c idx : ℕ} (hitem : (c, some idx) ∈ items)
    (h : ReadTo obuf start p done s) (hlen : 16 ≤ s.codebuf.len)
    (hreads : Reads s.tbuf (done ++ [c]))
    (hspells : Spells (byteBits obuf start) p
      [(lens t.encodeTable2 (matchidxCode idx), lens t.lengthTable2 (matchidxCode idx)),
        (idx - matchidxBase.getD (matchidxCode idx) 0,
          matchidxBitlen.getD (matchidxCode idx) 0)]) :
    ∃ s', s.index t.decodeTables = .ok s' ∧
      ReadTo obuf start (p + lens t.lengthTable2 (matchidxCode idx) +
        matchidxBitlen.getD (matchidxCode idx) 0) (done ++ [c, idx]) s' := by
  have hvalid := hcodes.valid _ hitem
  obtain ⟨hcode, hbase, -⟩ := matchidxCode_spec hvalid.2.2
  have hle : lens t.lengthTable2 (matchidxCode idx) ≤ 8 := hcodes.le2 _
  have hbitlen := matchidxBitlen_le (matchidxCode idx)
  obtain ⟨-, hfirst, hsmall, hsecond, -⟩ := hspells
  have hsym := decodeTable_of_le hcodes.encode2 hcodes.kraft2 le_rfl
    (s.codebuf.peek_lt kHuffmanMaxLen2)
    (fun k hk => h.holds.testBit_peek hk (by simp only [kHuffmanMaxLen2] at hk; omega))
    hcode (hcodes.used2 _ hitem idx rfl) (hcodes.le2 _) hfirst (hcodes.le2 _)
  rw [lens] at hsym
  have hout := h.output (n := lens t.lengthTable2 (matchidxCode idx)) (by omega)
  have hbits := hout.holds.peek_eq hsmall (by simp only [BitBuffer.len_output]; omega) hsecond
  have hend := hout.output (n := matchidxBitlen.getD (matchidxCode idx) 0)
    (by simp only [BitBuffer.len_output]; omega)
  have hidx : (matchidxBase.getD (matchidxCode idx) 0 +
      (idx - matchidxBase.getD (matchidxCode idx) 0)) % 65536 = idx := by
    rw [Nat.add_sub_cancel' hbase]
    exact Nat.mod_eq_of_lt (hvalid.2.2.trans (by decide))
  have hbucket : ¬ kBucketItemSize ≤ idx := not_le.mpr hvalid.2.2
  have hcode2 : ¬ kHuffmanCodes2 ≤ matchidxCode idx := not_le.mpr hcode
  refine ⟨{ s with
      codebuf := ((s.codebuf.output (lens t.lengthTable2 (matchidxCode idx))).2.output
        (matchidxBitlen.getD (matchidxCode idx) 0)).2
      tbuf := Function.update s.tbuf (s.i + 1) idx
      i := s.i + 2 }, ?_, hend.holds, hend.place, ?_, ?_⟩
  · have hout1 : ((s.codebuf.output (lens t.lengthTable2 (matchidxCode idx))).2.output
        (matchidxBitlen.getD (matchidxCode idx) 0)).1 =
        idx - matchidxBase.getD (matchidxCode idx) 0 := hbits
    simp only [HuffmanDecode.index, HuffmanTables.decodeTables, hsym, if_neg hcode2]
    rw [hout1, hidx, if_neg hbucket]
  · simp [h.i_eq]
  · have hpush := hreads.push idx
    rw [List.length_append, List.length_singleton, ← h.i_eq, List.append_assoc] at hpush
    exact hpush

/-- An item is read. -/
theorem ReadTo.round (hcodes : t.CodesFor items) {item : ZlingItem} (hitem : item ∈ items)
    (h : ReadTo obuf start p done s)
    (hspells : Spells (byteBits obuf start) p (itemFields t item)) :
    ∃ s', s.round t.decodeTables obuf = .ok s' ∧
      ReadTo obuf start (p + bitLength (itemFields t item)) (done ++ item.codes) s' := by
  obtain ⟨hfilled, hlen⟩ := h.refill
  have hlook := lookup_eq hcodes hfilled.holds hlen hitem hspells
  have hvalid := hcodes.valid item hitem
  have hlow : ¬ kHuffmanCodes1 ≤ item.1 := not_le.mpr hvalid.lt
  have hle : lens t.lengthTable1 item.1 ≤ 15 := hcodes.le1 item.1
  have hout := hfilled.output (n := lens t.lengthTable1 item.1) (by omega)
  have hpush := hfilled.reads.push item.1
  rw [← hfilled.i_eq] at hpush
  rw [HuffmanDecode.round]
  simp only [hlook, if_neg hlow]
  obtain ⟨c, idx⟩ := item
  cases idx with
  | none =>
    have hc : ¬ 258 ≤ c := not_le.mpr hvalid
    rw [if_neg hc]
    refine ⟨_, rfl, hout.holds, hout.place, ?_, hpush⟩
    simp [hfilled.i_eq, ZlingItem.codes]
  | some idx =>
    rw [if_pos hvalid.1]
    have hpushed : ReadTo obuf start (p + lens t.lengthTable1 c) done
        { s.refill obuf with
          codebuf := ((s.refill obuf).codebuf.output (lens t.lengthTable1 c)).2
          tbuf := Function.update (s.refill obuf).tbuf (s.refill obuf).i c } := by
      refine ⟨hout.holds, hout.place, hfilled.i_eq, ?_⟩
      exact hpush.mono (List.prefix_append _ _)
    obtain ⟨s', hs', hend⟩ := hpushed.index hcodes hitem
      (by simp only [BitBuffer.len_output]; simp only at hle; omega) hpush hspells.2.2
    refine ⟨s', hs', ?_⟩
    rwa [Nat.add_assoc, Nat.add_assoc] at hend

/-- All items are read. -/
theorem ReadTo.rounds (hcodes : t.CodesFor items) {l : List ZlingItem}
    (hl : ∀ item ∈ l, item ∈ items) (h : ReadTo obuf start p done s)
    (hspells : Spells (byteBits obuf start) p (l.flatMap (itemFields t))) {fuel : ℕ}
    (hfuel : l.length ≤ fuel) :
    ∃ s', HuffmanDecode.rounds t.decodeTables obuf
        (done ++ l.flatMap ZlingItem.codes).length fuel s = .ok s' ∧
      Reads s'.tbuf (done ++ l.flatMap ZlingItem.codes) := by
  induction l generalizing p done s fuel with
  | nil =>
    rw [List.flatMap_nil, List.append_nil]
    refine ⟨s, ?_, h.reads⟩
    cases fuel with
    | zero => rfl
    | succ fuel => rw [HuffmanDecode.rounds, if_neg (by rw [h.i_eq]; exact lt_irrefl _)]
  | cons item l ih =>
    rw [List.length_cons] at hfuel
    obtain ⟨fuel, rfl⟩ := Nat.exists_eq_succ_of_ne_zero (by omega : fuel ≠ 0)
    rw [List.flatMap_cons, spells_append] at hspells
    obtain ⟨s₁, hround, h₁⟩ := h.round hcodes (hl item List.mem_cons_self) hspells.1
    obtain ⟨s', hrun, hreads⟩ := ih (fun item hitem => hl item (List.mem_cons_of_mem _ hitem)) h₁
      hspells.2 (Nat.le_of_succ_le_succ hfuel)
    rw [List.append_assoc, ← List.flatMap_cons] at hrun hreads
    refine ⟨s', ?_, hreads⟩
    have hpos := item.length_codes.1
    rw [HuffmanDecode.rounds, if_pos, hround]
    · exact hrun
    · rw [h.i_eq, List.length_append, List.flatMap_cons, List.length_append]
      omega

end Read

/-! ## A block -/

section Block

variable (pq : PriorityQueue (HuffmanTree ℕ) HuffmanTree.weight) {items : List ZlingItem}

theorem length_le_flatMap_codes (items : List ZlingItem) :
    items.length ≤ (items.flatMap ZlingItem.codes).length := by
  induction items with
  | nil => exact le_rfl
  | cons item items ih =>
    have hpos := item.length_codes.1
    rw [List.length_cons, List.flatMap_cons, List.length_append]
    omega

theorem indexCodes_length_le (items : List ZlingItem) : (indexCodes items).length ≤ items.length :=
  List.length_filterMap_le _ _

/-- The indices of valid items have codes. -/
theorem mem_indexCodes {item : ZlingItem} (hitem : item ∈ items) {idx : ℕ} (hidx : idx ∈ item.2) :
    matchidxCode idx ∈ indexCodes items :=
  List.mem_filterMap.mpr ⟨item, hitem, by rw [Option.mem_def.mp hidx]; rfl⟩

/-- There are tables for some items. -/
structure BlockTables (items : List ZlingItem) (scaling1 scaling2 : ℕ) (t : HuffmanTables) :
    Prop where
  length1 : IsLengthTable (freqTable1 items) kHuffmanCodes1 kHuffmanMaxLen1 scaling1 t.lengthTable1
  length2 : IsLengthTable (freqTable2 items) kHuffmanCodes2 kHuffmanMaxLen2 scaling2 t.lengthTable2
  codes : t.CodesFor items

/-- The tables are made. -/
theorem exists_blockTables (hvalid : ∀ item ∈ items, item.Valid) (hlen : items.length ≤ 2 ^ 18) :
    ∃ scaling1 scaling2 t, BlockTables items scaling1 scaling2 t ∧
      zlingEncodeBlock pq (items.flatMap ZlingItem.codes) = some (encodeItems t items) ∧
      t = .ofLengths t.lengthTable1 t.lengthTable2 := by
  have hfreq1 : ∀ i, (freqTable1 items).getD i 0 ≤ 2 ^ 18 := by
    intro i
    have hcount := List.count_le_length (a := i) (l := items.map Prod.fst)
    rw [List.length_map] at hcount
    rw [getD_freqTable1]
    split <;> omega
  have hfreq2 : ∀ i, (freqTable2 items).getD i 0 ≤ 2 ^ 18 := by
    intro i
    have hcount := List.count_le_length (a := i) (l := indexCodes items)
    have hle := indexCodes_length_le items
    rw [getD_freqTable2]
    split <;> omega
  obtain ⟨scaling1, -, table1, hrun1, h1⟩ := zlingMakeLengthTable_spec pq
    (show 0 < kHuffmanMaxLen1 by decide)
    (show kHuffmanCodes1 < Nat.fib (kHuffmanMaxLen1 + 3) by decide) (by decide : 18 ≤ 30) hfreq1
  obtain ⟨scaling2, -, table2, hrun2, h2⟩ := zlingMakeLengthTable_spec pq
    (show 0 < kHuffmanMaxLen2 by decide)
    (show kHuffmanCodes2 < Nat.fib (kHuffmanMaxLen2 + 3) by decide) (by decide : 18 ≤ 30) hfreq2
  have hcodes1 : IsEncodeTable table1 kHuffmanCodes1 kHuffmanMaxLen1
      (zlingMakeEncodeTable table1 kHuffmanCodes1 kHuffmanMaxLen1) :=
    zlingMakeEncodeTable_spec h1.kraft (by decide) (by decide)
  have hcodes2 : IsEncodeTable table2 kHuffmanCodes2 kHuffmanMaxLen2
      (zlingMakeEncodeTable table2 kHuffmanCodes2 kHuffmanMaxLen2) :=
    zlingMakeEncodeTable_spec h2.kraft (by decide) (by decide)
  have hused1 : ∀ item ∈ items, 0 < lens table1 item.1 := by
    intro item hitem
    have hlt := (hvalid item hitem).lt
    refine (h1.pos_iff item.1).mpr ⟨hlt, ?_⟩
    rw [getD_freqTable1, if_pos hlt]
    exact List.count_pos_iff.mpr (List.mem_map_of_mem hitem)
  have hused2 : ∀ item ∈ items, ∀ idx ∈ item.2, 0 < lens table2 (matchidxCode idx) := by
    rintro ⟨c, idx'⟩ hitem idx ⟨⟩
    have hlt : matchidxCode idx < kHuffmanCodes2 := (matchidxCode_spec (hvalid _ hitem).2.2).1
    refine (h2.pos_iff _).mpr ⟨hlt, ?_⟩
    rw [getD_freqTable2, if_pos hlt]
    exact List.count_pos_iff.mpr (mem_indexCodes hitem rfl)
  refine ⟨scaling1, scaling2, .ofLengths table1 table2, ⟨h1, h2, ?_⟩, ?_, rfl⟩
  · refine ⟨?_, ?_, h1.kraft, h2.kraft, h1.le, h2.le, hvalid, hused1, hused2⟩
    · simp only [HuffmanTables.ofLengths]
      exact hcodes1
    · simp only [HuffmanTables.ofLengths]
      exact hcodes2
  · simp only [zlingEncodeBlock, takeItems_flatMap hvalid, hrun1, hrun2]

/-- The size of a block: its tables, and its bits in whole bytes. -/
theorem BlockTables.length_encodeItems {scaling1 scaling2 : ℕ} {t : HuffmanTables}
    (h : BlockTables items scaling1 scaling2 t) :
    8 * (encodeItems t items).length < 8 * (kHuffmanCodes1 / 2 + kHuffmanCodes2 / 2) +
      bitLength (items.flatMap (itemFields t)) + 8 := by
  obtain ⟨f, bytes, heq, -, -, -, hlt⟩ := encodeItems_spec h.codes
  rw [heq, List.length_append, List.length_append, length_lengthBytes, length_lengthBytes]
  omega

/-- A block that lies in memory is decoded to the codes that it was made of, whatever lies
behind it. -/
theorem BlockTables.decodes {scaling1 scaling2 : ℕ} {t : HuffmanTables}
    (h : BlockTables items scaling1 scaling2 t) (ht : t = .ofLengths t.lengthTable1 t.lengthTable2)
    {obuf : Mem}
    (hobuf : ∀ i < (encodeItems t items).length, obuf i = (encodeItems t items).getD i 0)
    (tbuf : ℕ → ℕ) :
    ∃ tbuf', zlingDecodeBlock obuf tbuf (items.flatMap ZlingItem.codes).length = .ok tbuf' ∧
      Reads tbuf' (items.flatMap ZlingItem.codes) := by
  obtain ⟨f, bytes, heq, hspells, hemitted, hle, -⟩ := encodeItems_spec h.codes
  have hlen1 := length_lengthBytes t.lengthTable1 kHuffmanCodes1
  have hlen2 := length_lengthBytes t.lengthTable2 kHuffmanCodes2
  rw [heq, List.append_assoc, List.length_append, List.length_append, hlen1, hlen2] at hobuf
  -- the lengths
  have htable1 : readLengths obuf 0 kHuffmanCodes1 = t.lengthTable1 := by
    refine readLengths_eq h.length1.size_eq (by decide) h.codes.le1 fun i hi => ?_
    rw [Nat.zero_add, hobuf i (by omega), List.getD_append _ _ _ _ (by rwa [hlen1])]
  have htable2 : readLengths obuf (kHuffmanCodes1 / 2) kHuffmanCodes2 = t.lengthTable2 := by
    refine readLengths_eq h.length2.size_eq (by decide)
      (fun i => (h.codes.le2 i).trans (by decide)) fun i hi => ?_
    rw [hobuf _ (by omega), List.getD_append_right _ _ _ _ (by omega), hlen1,
      Nat.add_sub_cancel_left, List.getD_append _ _ _ _ (by rwa [hlen2])]
  -- the bits behind them
  have hbits : Spells (byteBits obuf (kHuffmanCodes1 / 2 + kHuffmanCodes2 / 2)) 0
      (items.flatMap (itemFields t)) := by
    refine hspells.congr fun i hi => ?_
    have hbyte := hobuf (kHuffmanCodes1 / 2 + kHuffmanCodes2 / 2 + i / 8) (by omega)
    rw [List.getD_append_right _ _ _ _ (by omega), List.getD_append_right _ _ _ _ (by omega),
      hlen1, hlen2, show kHuffmanCodes1 / 2 + kHuffmanCodes2 / 2 + i / 8 - kHuffmanCodes1 / 2 -
        kHuffmanCodes2 / 2 = i / 8 by omega] at hbyte
    have hbit := hemitted (i / 8) (by omega) (i % 8) (by omega)
    rw [Nat.zero_add, byteBits, hbyte, hbit, Nat.div_add_mod]
  have hbegin : ReadTo obuf (kHuffmanCodes1 / 2 + kHuffmanCodes2 / 2) 0 []
      ⟨.empty, kHuffmanCodes1 / 2 + kHuffmanCodes2 / 2, tbuf, 0⟩ :=
    ⟨BitBuffer.holds_empty _ _, rfl, rfl, fun i hi => absurd hi (Nat.not_lt_zero i)⟩
  obtain ⟨s', hrun, hreads⟩ := hbegin.rounds h.codes (fun _ h => h) hbits
    (length_le_flatMap_codes items)
  rw [List.nil_append] at hrun hreads
  refine ⟨s'.tbuf, ?_, hreads⟩
  rw [zlingDecodeBlock, htable1, htable2, ← ht, hrun]

end Block

/-! ## What is accepted -/

/-- What a round that is no error does. -/
theorem HuffmanDecode.round_cases {t : DecodeTables} {obuf : Mem} {s s' : HuffmanDecode}
    (h : s.round t obuf = .ok s') : ∃ item : ZlingItem, item.Valid ∧
      s'.i = s.i + item.codes.length ∧
      s'.tbuf = item.2.elim (Function.update s.tbuf s.i item.1)
        (Function.update (Function.update s.tbuf s.i item.1) (s.i + 1)) := by
  have hrefill : (s.refill obuf).i = s.i ∧ (s.refill obuf).tbuf = s.tbuf := by
    simp only [refill]
    split
    · exact ⟨rfl, rfl⟩
    · exact ⟨rfl, rfl⟩
  simp only [round, hrefill.1, hrefill.2] at h
  generalize lookup t (s.refill obuf).codebuf = c at h
  split at h
  · cases h
  rename_i hc
  split at h
  · rename_i hmatch
    simp only [index] at h
    split at h
    · cases h
    split at h
    · cases h
    rename_i hidx
    obtain rfl := Except.ok.inj h
    exact ⟨(c, some _), ⟨hmatch, not_le.mp hc, not_le.mp hidx⟩, rfl, rfl⟩
  · rename_i hliteral
    obtain rfl := Except.ok.inj h
    exact ⟨(c, none), not_le.mp hliteral, rfl, rfl⟩

/-- The codes that are written so far are those of `items`. -/
structure WritesItems (tbuf : ℕ → ℕ) (items : List ZlingItem) (s : HuffmanDecode) : Prop where
  valid : ∀ item ∈ items, item.Valid
  i_eq : s.i = (items.flatMap ZlingItem.codes).length
  reads : Reads s.tbuf (items.flatMap ZlingItem.codes)
  behind : ∀ i, s.i ≤ i → s.tbuf i = tbuf i

section Accepted

variable {tbuf : ℕ → ℕ} {items : List ZlingItem} {s s' : HuffmanDecode} {t : DecodeTables}
  {obuf : Mem}

/-- A round that is no error writes one more. -/
theorem WritesItems.round (h : WritesItems tbuf items s) (hrun : s.round t obuf = .ok s') :
    ∃ item, WritesItems tbuf (items ++ [item]) s' ∧ s.i < s'.i := by
  obtain ⟨item, hvalid, hi, htbuf⟩ := HuffmanDecode.round_cases hrun
  have hlen := item.length_codes
  have hcodes : (items ++ [item]).flatMap ZlingItem.codes =
      items.flatMap ZlingItem.codes ++ item.codes := by
    rw [List.flatMap_append, List.flatMap_singleton]
  have hfirst := h.reads.push item.1
  rw [← h.i_eq] at hfirst
  refine ⟨item, ⟨fun other hmem => ?_, ?_, ?_, fun i hle => ?_⟩, by omega⟩
  · cases List.mem_append.mp hmem with
    | inl hold => exact h.valid other hold
    | inr hnew => exact List.mem_singleton.mp hnew ▸ hvalid
  · rw [hcodes, List.length_append, hi, h.i_eq]
  · obtain ⟨c, idx⟩ := item
    rw [hcodes, htbuf]
    cases idx with
    | none => exact hfirst
    | some idx =>
      have hsecond := hfirst.push idx
      rw [List.length_append, ← h.i_eq, List.append_assoc] at hsecond
      exact hsecond
  · have hold := h.behind i (by omega)
    obtain ⟨c, idx⟩ := item
    rw [htbuf]
    cases idx with
    | none =>
      rw [Option.elim_none, Function.update_of_ne (by omega), hold]
    | some idx =>
      have htwo : s'.i = s.i + 2 := hi
      rw [Option.elim_some, Function.update_of_ne (by omega), Function.update_of_ne (by omega),
        hold]

/-- Some rounds, of which none is an error. -/
theorem WritesItems.rounds {rlen fuel : ℕ} (h : WritesItems tbuf items s)
    (hbegin : BeginBefore rlen 0 items) (hfuel : rlen ≤ s.i + fuel)
    (hrun : HuffmanDecode.rounds t obuf rlen fuel s = .ok s') :
    ∃ items', WritesItems tbuf items' s' ∧ rlen ≤ s'.i ∧ BeginBefore rlen 0 items' := by
  induction fuel generalizing s items with
  | zero =>
    obtain rfl := Except.ok.inj hrun
    exact ⟨items, h, hfuel, hbegin⟩
  | succ fuel ih =>
    rw [HuffmanDecode.rounds] at hrun
    split at hrun
    · rename_i hlt
      cases hround : s.round t obuf with
      | error e =>
        rw [hround] at hrun
        cases hrun
      | ok s₁ =>
        rw [hround] at hrun
        obtain ⟨item, h₁, hforward⟩ := h.round hround
        refine ih h₁ (beginBefore_append.mpr ⟨hbegin, ?_⟩) (by omega) hrun
        rwa [Nat.zero_add, ← h.i_eq]
    · rename_i hend
      obtain rfl := Except.ok.inj hrun
      exact ⟨items, h, not_lt.mp hend, hbegin⟩

/-- Whatever the bytes of a block are, codes that are accepted are those of literals, words and
matches, each with a place in its bucket; only the index of the last match may be behind those that
were asked for, and nothing else of the buffer is changed. -/
theorem zlingDecodeBlock_wellFormed {rlen : ℕ} {tbuf' : ℕ → ℕ}
    (h : zlingDecodeBlock obuf tbuf rlen = .ok tbuf') :
    ∃ items : List ZlingItem, (∀ item ∈ items, item.Valid) ∧
      rlen ≤ (items.flatMap ZlingItem.codes).length ∧ BeginBefore rlen 0 items ∧
      Reads tbuf' (items.flatMap ZlingItem.codes) ∧
      ∀ i, (items.flatMap ZlingItem.codes).length ≤ i → tbuf' i = tbuf i := by
  have hbegin : WritesItems tbuf []
      ⟨.empty, kHuffmanCodes1 / 2 + kHuffmanCodes2 / 2, tbuf, 0⟩ :=
    ⟨by simp, rfl, fun i hi => absurd hi (Nat.not_lt_zero i), fun _ _ => rfl⟩
  simp only [zlingDecodeBlock] at h
  split at h
  · cases h
  · rename_i s hrun
    obtain rfl := Except.ok.inj h
    obtain ⟨items, hitems, hge, hbefore⟩ :=
      hbegin.rounds trivial (Nat.le_add_left rlen _) hrun
    have hi := hitems.i_eq
    exact ⟨items, hitems.valid, by omega, hbefore, hitems.reads, fun i hle => hitems.behind i
      (by omega)⟩

end Accepted

/-- A block of a literal and a match. -/
theorem zlingDecodeBlock_wellFormed_three :
    ∃ bytes tbuf, zlingEncodeBlock (.sorted _) [65, 300, 7] = some bytes ∧
      zlingDecodeBlock (Mem.ofList bytes) (fun _ => 0) 3 = .ok tbuf ∧
      ∃ items : List ZlingItem, (∀ item ∈ items, item.Valid) ∧
        3 ≤ (items.flatMap ZlingItem.codes).length ∧
        Reads tbuf (items.flatMap ZlingItem.codes) := by
  have hvalid : ∀ item ∈ ([(65, none), (300, some 7)] : List ZlingItem), item.Valid := by
    intro item hitem
    simp only [List.mem_cons, List.not_mem_nil, or_false] at hitem
    obtain rfl | rfl := hitem
    · exact (by decide : 65 < 258)
    · exact (by decide : 258 ≤ 300 ∧ 300 < 258 + (kMatchMaxLen - kMatchMinLen + 1) ∧
        7 < kBucketItemSize)
  obtain ⟨scaling1, scaling2, t, htables, hblock, ht⟩ :=
    exists_blockTables (.sorted _) hvalid (by decide)
  have hbytes : ∀ i < (encodeItems t [(65, none), (300, some 7)]).length,
      Mem.ofList (encodeItems t [(65, none), (300, some 7)]) i =
        (encodeItems t [(65, none), (300, some 7)]).getD i 0 := fun _ _ => rfl
  obtain ⟨tbuf, hdecode, -⟩ := htables.decodes ht hbytes fun _ => 0
  obtain ⟨items, hitems, hge, -, hreads, -⟩ := zlingDecodeBlock_wellFormed hdecode
  exact ⟨_, tbuf, hblock, hdecode, items, hitems, hge, hreads⟩

end Lzbench
