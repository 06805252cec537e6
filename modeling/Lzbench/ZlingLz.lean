import Lzbench.Lib.CInt
import Lzbench.Lib.Loop
import Lzbench.Lib.Pieces
import Mathlib.Data.FinEnum
import Mathlib.Data.Fintype.Card
import Mathlib.Logic.Equiv.Basic

/-!
# The ROLZ coder of zling

`ZlingRolzEncoder` and `ZlingRolzDecoder`.  The bytes of a text are grouped by the byte before
them.  For each group there is a bucket with the last positions at which an item began, so
that a match is named by how many positions of its bucket it lies back; and there is a table
that turns a byte into its rank.  Two more codes stand for the two words that came last
behind the byte before.

Neither side is told what the other has in its tables: the decoder makes the same changes
after every item.  At the end of a buffer the encoder stops to look for matches, and leaves
its buckets as they are, while the decoder goes on.

## Main definitions

* `ZlingMTFEncoder`, `ZlingMTFDecoder` — the ranks.
* `matchAndUpdate`, `getMatchAndUpdate` — the buckets.
* `ZlingRolzEncoder.encode`, `ZlingRolzDecoder.decode` — the two functions.
* `InStep` — what the two sides have in common.
* `Paired.call` — what a call encodes is decoded again.
-/

namespace Lzbench

open Imperative

/-! ## Ranks -/

section Swap

variable {α β : Type} [DecidableEq α]

/-- `std::swap(f[i], f[j])`. -/
def swapAt (f : α → β) (i j : α) : α → β := fun k =>
  if k = i then f j else if k = j then f i else f k

theorem swapAt_eq (f : α → β) (i j k : α) : swapAt f i j k = f (Equiv.swap i j k) := by
  rw [swapAt, Equiv.swap_apply_def]
  split
  · rfl
  · split <;> rfl

end Swap

/-- `mtfinit`. -/
def mtfinit : List ℕ :=
  [32, 101, 116, 97, 105, 111, 110, 114, 115, 108, 104, 100, 99, 117, 93, 91, 109, 112, 103, 102,
  10, 121, 98, 39, 119, 46, 44, 118, 59, 38, 124, 47, 49, 107, 61, 48, 67, 65, 58, 45, 84, 83,
  60, 62, 50, 113, 73, 57, 42, 120, 41, 40, 66, 77, 80, 69, 68, 53, 51, 72, 70, 56, 52, 71, 82,
  54, 76, 55, 78, 87, 122, 125, 123, 79, 106, 85, 74, 75, 208, 95, 195, 35, 86, 215, 90, 34, 89,
  209, 128, 224, 184, 131, 92, 227, 37, 33, 176, 169, 206, 226, 130, 63, 88, 81, 161, 153, 43,
  129, 188, 179, 216, 164, 181, 189, 148, 190, 173, 187, 186, 229, 225, 167, 217, 177, 178, 168,
  149, 185, 197, 144, 147, 196, 207, 194, 180, 156, 132, 170, 166, 136, 182, 191, 9, 230, 141,
  160, 175, 36, 152, 140, 165, 145, 94, 133, 163, 183, 171, 157, 137, 174, 134, 135, 236, 151,
  231, 155, 201, 158, 138, 143, 150, 162, 159, 139, 172, 154, 126, 232, 235, 146, 233, 228, 202,
  203, 142, 214, 237, 204, 219, 234, 213, 96, 218, 199, 64, 210, 239, 198, 211, 205, 212, 240,
  222, 220, 200, 0, 1, 2, 3, 4, 5, 6, 7, 8, 11, 12, 13, 14, 15, 16, 17, 18, 19, 20, 21, 22, 23,
  24, 25, 26, 27, 28, 29, 30, 31, 127, 192, 193, 221, 223, 238, 241, 242, 243, 244, 245, 246,
  247, 248, 249, 250, 251, 252, 253, 254, 255]

/-- `mtfnext`. -/
def mtfnext : List ℕ :=
  [0, 0, 1, 2, 3, 4, 5, 6, 7, 8, 9, 10, 11, 12, 13, 14, 15, 16, 17, 18, 19, 19, 20, 21, 22, 23,
  24, 25, 26, 27, 28, 29, 30, 31, 32, 33, 34, 35, 36, 37, 38, 38, 39, 40, 41, 42, 43, 44, 45, 46,
  47, 48, 49, 50, 51, 52, 53, 54, 55, 56, 57, 57, 58, 59, 60, 61, 62, 63, 64, 65, 66, 67, 68, 69,
  70, 71, 72, 73, 74, 75, 76, 76, 77, 78, 79, 80, 81, 82, 83, 84, 85, 86, 87, 88, 89, 90, 91, 92,
  93, 94, 95, 95, 96, 97, 98, 99, 100, 101, 102, 103, 104, 105, 106, 107, 108, 109, 110, 111,
  112, 113, 114, 114, 115, 116, 117, 118, 119, 120, 70, 70, 71, 72, 72, 73, 73, 74, 74, 75, 75,
  76, 77, 77, 78, 78, 79, 79, 80, 80, 81, 81, 82, 83, 83, 84, 84, 85, 85, 86, 86, 87, 88, 88, 89,
  89, 90, 90, 91, 91, 92, 92, 93, 94, 94, 95, 95, 96, 96, 97, 97, 98, 99, 99, 100, 100, 101, 101,
  102, 102, 103, 103, 104, 105, 105, 106, 106, 107, 107, 108, 108, 109, 110, 110, 111, 111, 112,
  112, 113, 113, 114, 114, 115, 116, 116, 117, 117, 118, 118, 119, 119, 120, 121, 121, 122, 122,
  123, 123, 124, 124, 125, 125, 126, 127, 127, 128, 128, 129, 129, 130, 130, 131, 132, 132, 133,
  133, 134, 134, 135, 135, 136, 136, 137, 138, 138, 139, 139, 140]

/-- The set of the elements, as the bits of a number. -/
def bitsOf (l : List ℕ) : ℕ := l.foldr (fun i s => s ||| 1 <<< i) 0

theorem testBit_bitsOf (l : List ℕ) (c : ℕ) : (bitsOf l).testBit c = decide (c ∈ l) := by
  induction l with
  | nil => simp [bitsOf]
  | cons i l ih =>
    simp only [bitsOf, List.foldr_cons] at ih ⊢
    rw [Nat.testBit_or, ih, Nat.one_shiftLeft, Nat.testBit_two_pow]
    grind

/-- The initial table is a permutation of the bytes. -/
theorem mem_mtfinit {c : ℕ} (hc : c < 256) : c ∈ mtfinit := by
  have hall : bitsOf mtfinit = 2 ^ 256 - 1 := by decide +kernel
  have hbit := testBit_bitsOf mtfinit c
  rw [hall, Nat.testBit_two_pow_sub_one] at hbit
  simpa [hc] using hbit

/-- The table that both sides begin with. -/
def mtfTable (i : UInt8) : UInt8 := .ofNat (mtfinit.getD i.toNat 0)

/-- `m_index[m_table[i]] = i`, for all `i` below `n`. -/
def mtfIndex (n : ℕ) : UInt8 → UInt8 :=
  (List.range n).foldl (fun f i => Function.update f (mtfTable (.ofNat i)) (.ofNat i)) fun _ => 0

theorem length_mtfinit : mtfinit.length = 256 := by decide +kernel

theorem mtfTable_surjective : Function.Surjective mtfTable := by
  intro c
  obtain ⟨i, hi, hget⟩ := List.mem_iff_getElem.mp (mem_mtfinit c.toNat_lt)
  rw [length_mtfinit] at hi
  refine ⟨.ofNat i, ?_⟩
  rw [mtfTable, UInt8.toNat_ofNat_of_lt' hi, List.getD_eq_getElem _ _ (by rwa [length_mtfinit]),
    hget]
  simp

/-- What has been entered is right. -/
theorem mtfTable_mtfIndex_of_lt {n : ℕ} {i : UInt8} (hi : i.toNat < n) :
    mtfTable (mtfIndex n (mtfTable i)) = mtfTable i := by
  induction n with
  | zero => omega
  | succ n ih =>
    have hnext : mtfIndex (n + 1) =
        Function.update (mtfIndex n) (mtfTable (.ofNat n)) (.ofNat n) := by
      simp only [mtfIndex, List.range_succ, List.foldl_append, List.foldl_cons, List.foldl_nil]
    rw [hnext]
    by_cases hlast : mtfTable i = mtfTable (.ofNat n)
    · rw [hlast, Function.update_self]
    · rw [Function.update_of_ne hlast]
      refine ih ?_
      by_contra hge
      have hin : i.toNat = n := by omega
      exact hlast (by rw [← hin, UInt8.ofNat_toNat])

theorem mtfTable_mtfIndex (c : UInt8) : mtfTable (mtfIndex 256 c) = c := by
  obtain ⟨i, rfl⟩ := mtfTable_surjective c
  exact mtfTable_mtfIndex_of_lt i.toNat_lt

theorem mtfIndex_mtfTable (i : UInt8) : mtfIndex 256 (mtfTable i) = i := by
  have hinj : Function.Injective mtfTable :=
    Finite.injective_iff_surjective.mpr mtfTable_surjective
  exact hinj (mtfTable_mtfIndex _)

/-- `ZlingMTFEncoder`. -/
structure ZlingMTFEncoder where
  table : UInt8 → UInt8
  index : UInt8 → UInt8
  table_index : ∀ c, table (index c) = c
  index_table : ∀ i, index (table i) = i

namespace ZlingMTFEncoder

def init : ZlingMTFEncoder := ⟨mtfTable, mtfIndex 256, mtfTable_mtfIndex, mtfIndex_mtfTable⟩

/-- Swapping two places of a table and swapping what its inverse says of the two bytes there
is the same. -/
theorem swapAt_swapAt {f g : UInt8 → UInt8} (hgf : ∀ i, g (f i) = i) (hfg : ∀ c, f (g c) = c)
    (i j c : UInt8) : swapAt f i j (swapAt g (f i) (f j) c) = c := by
  let e : UInt8 ≃ UInt8 := ⟨f, g, hgf, hfg⟩
  have hswap : Equiv.swap (f i) (f j) c = f (Equiv.swap i j (g c)) := by
    have h := Equiv.symm_trans_swap_trans i j e
    exact (congrArg (fun s => s c) h).symm
  rw [swapAt_eq, swapAt_eq, hswap, hgf, Equiv.swap_apply_self, hfg]

/-- The rank of a byte, and the tables with its place and another one swapped. -/
def encode (m : ZlingMTFEncoder) (c : UInt8) : UInt8 × ZlingMTFEncoder :=
  let i := m.index c
  let next := UInt8.ofNat (mtfnext.getD i.toNat 0)
  (i, {
    table := swapAt m.table i next
    index := swapAt m.index c (m.table next)
    table_index := by
      intro c'
      have h := swapAt_swapAt m.index_table m.table_index i next c'
      rwa [m.table_index] at h
    index_table := by
      intro i'
      have h := swapAt_swapAt m.table_index m.index_table c (m.table next) i'
      rwa [m.index_table] at h })

end ZlingMTFEncoder

/-- `ZlingMTFDecoder`. -/
structure ZlingMTFDecoder where
  table : UInt8 → UInt8

namespace ZlingMTFDecoder

def init : ZlingMTFDecoder := ⟨mtfTable⟩

/-- The byte of a rank. -/
def decode (m : ZlingMTFDecoder) (i : UInt8) : UInt8 × ZlingMTFDecoder :=
  (m.table i, ⟨swapAt m.table i (UInt8.ofNat (mtfnext.getD i.toNat 0))⟩)

end ZlingMTFDecoder

/-- Both sides keep the same table. -/
theorem mtf_decode_encode {m : ZlingMTFEncoder} {d : ZlingMTFDecoder} (h : d.table = m.table)
    (c : UInt8) : (d.decode (m.encode c).1).1 = c ∧
      (d.decode (m.encode c).1).2.table = (m.encode c).2.table := by
  simp only [ZlingMTFDecoder.decode, ZlingMTFEncoder.encode, h]
  exact ⟨m.table_index c, trivial⟩

/-! ## Buckets -/

/-- `kBucketItemSize`, `kBucketItemHash`. -/
def kBucketItemSize : ℕ := 4096
def kBucketItemHash : ℕ := 8192

/-- `kMatchMinLenEnableLazy`, `kMatchMinLen`, `kMatchMaxLen`. -/
def kMatchMinLenEnableLazy : ℕ := 128
def kMatchMinLen : ℕ := 4
def kMatchMaxLen : ℕ := 259

/-- What stands for no node. -/
def noNode : ℕ := 65535

/-- `RollingAdd`. -/
def rollingAdd (x y : ℕ) : ℕ := toUInt32 (x + y) &&& (kBucketItemSize - 1)

/-- `RollingSub`. -/
def rollingSub (x y : ℕ) : ℕ := toUInt32 (x - y) &&& (kBucketItemSize - 1)

/-- The 32 bits at `p`. -/
def load32 (m : Mem) (p : ℕ) : ℕ :=
  (m p).toNat + (m (p + 1)).toNat * 2 ^ 8 + (m (p + 2)).toNat * 2 ^ 16 +
    (m (p + 3)).toNat * 2 ^ 24

/-- The 16 bits at `p`. -/
def load16 (m : Mem) (p : ℕ) : ℕ := (m p).toNat + (m (p + 1)).toNat * 2 ^ 8

/-- `HashContext`. -/
def hashContext (buf : Mem) (p : ℕ) : ℕ :=
  toUInt32 (load32 buf p + (buf (p + 2)).toNat * 137 + (buf (p + 3)).toNat * 13337)

/-- `while (maxlen >= 4 && …)`, where `k` words are left of `maxlen`. -/
def commonWords (m : Mem) (buf1 buf2 : ℕ) : ℕ → ℕ → ℕ
  | 0, p => p
  | k + 1, p =>
    if load32 m (buf1 + p) = load32 m (buf2 + p) then commonWords m buf1 buf2 k (p + 4) else p

/-- `if (maxlen >= 2 && …)`. -/
def commonHalf (m : Mem) (buf1 buf2 maxlen p : ℕ) : ℕ :=
  if p + 2 ≤ maxlen ∧ load16 m (buf1 + p) = load16 m (buf2 + p) then p + 2 else p

/-- `if (maxlen >= 1 && …)`. -/
def commonByte (m : Mem) (buf1 buf2 maxlen p : ℕ) : ℕ :=
  if p + 1 ≤ maxlen ∧ m (buf1 + p) = m (buf2 + p) then p + 1 else p

/-- `GetCommonLength`. -/
def getCommonLength (m : Mem) (buf1 buf2 maxlen : ℕ) : ℕ :=
  if load32 m buf1 ≠ load32 m buf2 then 0
  else
    commonByte m buf1 buf2 maxlen
      (commonHalf m buf1 buf2 maxlen (commonWords m buf1 buf2 (maxlen / 4) 0))

/-- `ZlingEncodeBucket`. -/
structure ZlingEncodeBucket where
  suffix : ℕ → ℕ
  offset : ℕ → ℕ
  head : ℕ
  hash : ℕ → ℕ

namespace ZlingEncodeBucket

/-- The bucket after `Reset`. -/
def reset : ZlingEncodeBucket := ⟨fun _ => 65535, fun _ => 0, 0, fun _ => 65535⟩

/-- The two parts of an entry of `offset`. -/
def position (b : ZlingEncodeBucket) (node : ℕ) : ℕ := b.offset node &&& 0xffffff
def check (b : ZlingEncodeBucket) (node : ℕ) : ℕ := b.offset node >>> 24

/-- A position is entered. -/
def update (b : ZlingEncodeBucket) (pos hash : ℕ) : ZlingEncodeBucket :=
  let hashCheck := hash / kBucketItemHash % 256
  let hashContext := hash % kBucketItemHash
  let head := rollingAdd b.head 1
  { suffix := Function.update b.suffix head (b.hash hashContext)
    offset := Function.update b.offset head (pos ||| hashCheck <<< 24)
    head := head
    hash := Function.update b.hash hashContext head }

/-- The loop of `MatchAndUpdate`, with `depth` rounds left; `best` is `maxlen` and `maxnode`. -/
def bestMatch (b : ZlingEncodeBucket) (buf : Mem) (pos hashCheck : ℕ) :
    ℕ → ℕ × ℕ → ℕ → ℕ × ℕ
  | 0, best, _ => best
  | depth + 1, best, node =>
    let offset := b.position node
    let len :=
      if b.check node = hashCheck ∧ buf (pos + best.1) = buf (offset + best.1) then
        getCommonLength buf pos offset kMatchMaxLen
      else 0
    if len > best.1 ∧ len = kMatchMaxLen then (len, node)
    else
      let best := if len > best.1 then (len, node) else best
      let next := b.suffix node
      if next = noNode ∨ offset ≤ b.position next then best
      else bestMatch b buf pos hashCheck depth best next

/-- The loop of `MatchLazy`. -/
def lazyLoop (b : ZlingEncodeBucket) (buf : Mem) (pos maxlen : ℕ) : ℕ → ℕ → Bool
  | 0, _ => false
  | depth + 1, node =>
    let offset := b.position node
    if load32 buf (pos + maxlen) = load32 buf (offset + maxlen) then true
    else
      let next := b.suffix node
      if next = noNode ∨ offset ≤ b.position next then false
      else lazyLoop b buf pos maxlen depth next

end ZlingEncodeBucket

/-- `MatchLazy`. -/
def matchLazy (buckets : UInt8 → ZlingEncodeBucket) (buf : Mem) (pos maxlen depth : ℕ) : Bool :=
  let b := buckets (buf (pos - 1))
  let node := b.hash (hashContext buf pos % kBucketItemHash)
  if node = noNode then false else b.lazyLoop buf pos (maxlen - 3) depth node

/-- The parameters of `EncodeImpl`. -/
structure RolzLevel where
  matchDepth : ℕ
  lazyMatch1Depth : ℕ
  lazyMatch2Depth : ℕ

/-- `MatchAndUpdate`: `match_idx` and `match_len`, where it finds a match. -/
def matchAndUpdate (k : RolzLevel) (buckets : UInt8 → ZlingEncodeBucket) (buf : Mem) (pos : ℕ) :
    Option (ℕ × ℕ) × (UInt8 → ZlingEncodeBucket) :=
  let c := buf (pos - 1)
  let hash := hashContext buf pos
  let node := (buckets c).hash (hash % kBucketItemHash)
  let b := (buckets c).update pos hash
  let buckets := Function.update buckets c b
  if node = noNode ∨ node = b.head then (none, buckets)
  else
    let best := b.bestMatch buf pos (hash / kBucketItemHash % 256) k.matchDepth
      (kMatchMinLen - 1, 0) node
    if best.1 < kMatchMinLen then (none, buckets)
    else if best.1 < kMatchMinLenEnableLazy ∧
        (k.lazyMatch1Depth > 0 ∧ matchLazy buckets buf (pos + 1) best.1 k.lazyMatch1Depth ∨
          k.lazyMatch2Depth > 0 ∧ matchLazy buckets buf (pos + 2) best.1 k.lazyMatch2Depth) then
      (none, buckets)
    else (some (rollingSub b.head best.2, best.1), buckets)

/-- `ZlingDecodeBucket`. -/
structure ZlingDecodeBucket where
  offset : ℕ → ℕ
  head : ℕ

namespace ZlingDecodeBucket

/-- The bucket after `Reset`. -/
def reset : ZlingDecodeBucket := ⟨fun _ => 0, 0⟩

/-- A position is entered. -/
def update (b : ZlingDecodeBucket) (pos : ℕ) : ZlingDecodeBucket :=
  let head := rollingAdd b.head 1
  ⟨Function.update b.offset head pos, head⟩

end ZlingDecodeBucket

/-- `GetMatchAndUpdate`. -/
def getMatchAndUpdate (buckets : UInt8 → ZlingDecodeBucket) (buf : Mem) (pos idx : ℕ) :
    ℕ × (UInt8 → ZlingDecodeBucket) :=
  let b := (buckets (buf (pos - 1))).update pos
  (b.offset (rollingSub b.head idx), Function.update buckets (buf (pos - 1)) b)

/-! ## Encoding -/

/-- `ZlingRolzEncoder`. -/
structure ZlingRolzEncoder where
  buckets : UInt8 → ZlingEncodeBucket
  mtf : UInt8 → ZlingMTFEncoder

/-- The word at `p`, as `word_mru` holds it. -/
def wordAt (buf : Mem) (p : ℕ) : ℕ := (buf p).toNat <<< 8 ||| (buf (p + 1)).toNat

/-- `word_mru`: for every byte the two words that came last behind it. -/
abbrev WordMru := Array (ℕ × ℕ)

namespace WordMru

def init : WordMru := .replicate 256 (0, 0)

/-- The words behind a byte. -/
def words (mru : WordMru) (c : UInt8) : ℕ × ℕ := mru.getD c.toNat (0, 0)

/-- The word that ends at `p` becomes the last one behind the byte before it. -/
def push (mru : WordMru) (buf : Mem) (p : ℕ) : WordMru :=
  let c := buf (p - 3)
  mru.setIfInBounds c.toNat (wordAt buf (p - 2), (mru.words c).1)

/-- The same, if the word is not the last one already. -/
def pushNew (mru : WordMru) (buf : Mem) (p : ℕ) : WordMru :=
  if (mru.words (buf (p - 3))).1 ≠ wordAt buf (p - 2) then mru.push buf p else mru

end WordMru

/-- The variables of `EncodeImpl`; `opos` is the length of `obuf`. -/
structure RolzEncode extends ZlingRolzEncoder where
  ipos : ℕ
  obuf : List ℕ
  wordMru : WordMru

namespace RolzEncode

/-- `if (ipos == i && opos < olen && ipos < ilen) obuf[opos++] = ibuf[ipos++]`. -/
def firstByte (ibuf : Mem) (ilen olen i : ℕ) (s : RolzEncode) : RolzEncode :=
  if s.ipos = i ∧ s.obuf.length < olen ∧ s.ipos < ilen then
    { s with obuf := s.obuf ++ [(ibuf s.ipos).toNat], ipos := s.ipos + 1 }
  else s

/-- A round that has found no match. -/
def wordOrLiteral (ibuf : Mem) (ilen : ℕ) (s : RolzEncode) : RolzEncode :=
  let mru := s.wordMru.words (ibuf (s.ipos - 1))
  if s.ipos + 1 < ilen ∧ mru.1 = wordAt ibuf s.ipos then
    { s with obuf := s.obuf ++ [256], ipos := s.ipos + 2 }
  else if s.ipos + 1 < ilen ∧ mru.2 = wordAt ibuf s.ipos then
    { s with
      obuf := s.obuf ++ [257]
      ipos := s.ipos + 2
      wordMru := s.wordMru.push ibuf (s.ipos + 2) }
  else
    let c := ibuf (s.ipos - 1)
    let r := (s.mtf c).encode (ibuf s.ipos)
    { s with
      obuf := s.obuf ++ [r.1.toNat]
      ipos := s.ipos + 1
      mtf := Function.update s.mtf c r.2
      wordMru := s.wordMru.push ibuf (s.ipos + 1) }

/-- A round of the loop. -/
def round (k : RolzLevel) (ibuf : Mem) (ilen : ℕ) (s : RolzEncode) : RolzEncode :=
  if s.ipos + kMatchMaxLen + 16 < ilen then
    match matchAndUpdate k s.buckets ibuf s.ipos with
    | (some (idx, len), buckets) =>
      { s with
        buckets := buckets
        obuf := s.obuf ++ [258 + len - kMatchMinLen, idx]
        ipos := s.ipos + len
        wordMru := s.wordMru.pushNew ibuf (s.ipos + len) }
    | (none, buckets) => { s with buckets := buckets }.wordOrLiteral ibuf ilen
  else s.wordOrLiteral ibuf ilen

/-- A round, or the end of the function. -/
def step (k : RolzLevel) (ibuf : Mem) (ilen olen : ℕ) (s : RolzEncode) :
    RolzEncode ⊕ RolzEncode :=
  if s.obuf.length + 1 < olen ∧ s.ipos < ilen then .inl (s.round k ibuf ilen) else .inr s

end RolzEncode

namespace ZlingRolzEncoder

def init : ZlingRolzEncoder := ⟨fun _ => .reset, fun _ => .init⟩

/-- `Reset`, which leaves the ranks alone. -/
def reset (e : ZlingRolzEncoder) : ZlingRolzEncoder := { e with buckets := fun _ => .reset }

/-- `EncodeImpl`, from `encpos` on.  Every round takes a byte. -/
def encodeImpl (e : ZlingRolzEncoder) (k : RolzLevel) (ibuf : Mem) (ilen olen encpos : ℕ) :
    Option RolzEncode :=
  let s : RolzEncode := { e with ipos := encpos, obuf := [], wordMru := .init }
  let s := (s.firstByte ibuf ilen olen 0).firstByte ibuf ilen olen 1
  loopTo (RolzEncode.step k ibuf ilen olen) (ilen + 1) s

end ZlingRolzEncoder

/-- The levels of `ZlingRolzEncoder::Encode`. -/
def rolzLevel (level : ℤ) : Option RolzLevel :=
  match level with
  | 0 => some ⟨2, 1, 0⟩
  | 1 => some ⟨4, 1, 0⟩
  | 2 => some ⟨6, 2, 0⟩
  | 3 => some ⟨8, 3, 1⟩
  | 4 => some ⟨16, 4, 2⟩
  | _ => none

/-- `ZlingRolzEncoder::Encode`, with what it returns.  At a level that is none nothing is done. -/
def ZlingRolzEncoder.encode (e : ZlingRolzEncoder) (level : ℤ) (ibuf : Mem)
    (ilen olen encpos : ℕ) : Option (ℤ × RolzEncode) :=
  match rolzLevel level with
  | some k => (e.encodeImpl k ibuf ilen olen encpos).map fun s => (s.obuf.length, s)
  | none => some (-1, { e with ipos := encpos, obuf := [], wordMru := .init })

/-! ## Decoding -/

/-- `ZlingRolzDecoder`. -/
structure ZlingRolzDecoder where
  buckets : UInt8 → ZlingDecodeBucket
  mtf : UInt8 → ZlingMTFDecoder

/-- A word of four bytes is loaded, and then stored. -/
def copyWord (m : Mem) (src dst : ℕ) : Mem := fun p =>
  if dst ≤ p ∧ p < dst + 4 then m (src + (p - dst)) else m p

/-- `n` words, one after the other. -/
def copyWords (m : Mem) (src dst : ℕ) : ℕ → Mem
  | 0 => m
  | n + 1 => copyWords (copyWord m src dst) (src + 4) (dst + 4) n

/-- `IncrementalCopyFastPath`: a copy from less than four bytes before is doubled until it is
four bytes long, with `fuel` rounds for that; then there are as many words as `len` takes. -/
def incrementalCopyFastPath : ℕ → Mem → ℕ → ℕ → ℕ → Option Mem
  | 0, _, _, _, _ => none
  | fuel + 1, m, src, dst, len =>
    if dst - src < 4 then
      incrementalCopyFastPath fuel (copyWord m src dst) src (dst + (dst - src))
        (len - (dst - src))
    else some (copyWords m src dst ((len + 3) / 4))

/-- The variables of `Decode`. -/
structure RolzDecode extends ZlingRolzDecoder where
  ipos : ℕ
  opos : ℕ
  obuf : Mem
  wordMru : WordMru

namespace RolzDecode

/-- `if (opos == i && ipos < ilen) obuf[opos++] = ibuf[ipos++]`. -/
def firstByte (ibuf : ℕ → ℕ) (ilen i : ℕ) (s : RolzDecode) : RolzDecode :=
  if s.opos = i ∧ s.ipos < ilen then
    { s with
      obuf := Function.update s.obuf s.opos (.ofNat (ibuf s.ipos))
      opos := s.opos + 1
      ipos := s.ipos + 1 }
  else s

/-- A literal byte. -/
def literal (ibuf : ℕ → ℕ) (s : RolzDecode) : RolzDecode :=
  let c := s.obuf (s.opos - 1)
  let r := (s.mtf c).decode (.ofNat (ibuf s.ipos))
  let obuf := Function.update s.obuf s.opos r.1
  { ipos := s.ipos + 1
    opos := s.opos + 1
    obuf := obuf
    mtf := Function.update s.mtf c r.2
    buckets := (getMatchAndUpdate s.buckets obuf s.opos 0).2
    wordMru := s.wordMru.push obuf (s.opos + 1) }

/-- The two bytes of a word. -/
def word (word : ℕ) (s : RolzDecode) : RolzDecode :=
  let obuf := Function.update s.obuf s.opos (.ofNat (word >>> 8 &&& 0xff))
  { s with
    ipos := s.ipos + 1
    opos := s.opos + 2
    obuf := Function.update obuf (s.opos + 1) (.ofNat (word &&& 0xff))
    buckets := (getMatchAndUpdate s.buckets obuf s.opos 0).2 }

/-- A match; nothing comes of one that is copied to where it is. -/
def copy (ibuf : ℕ → ℕ) (s : RolzDecode) : Option RolzDecode :=
  let matchLen := ibuf s.ipos - 258 + kMatchMinLen
  let found := getMatchAndUpdate s.buckets s.obuf s.opos (ibuf (s.ipos + 1))
  (incrementalCopyFastPath 3 s.obuf found.1 s.opos matchLen).map fun obuf =>
    { s with
      ipos := s.ipos + 2
      opos := s.opos + matchLen
      obuf := obuf
      buckets := found.2
      wordMru := s.wordMru.pushNew obuf (s.opos + matchLen) }

/-- What is done for an item.  There is no result where the loop of a copy does not end. -/
def round (ibuf : ℕ → ℕ) (s : RolzDecode) : Option RolzDecode :=
  if ibuf s.ipos < 256 then some (s.literal ibuf)
  else if ibuf s.ipos = 256 then some (s.word (s.wordMru.words (s.obuf (s.opos - 1))).1)
  else if ibuf s.ipos = 257 then
    let s := s.word (s.wordMru.words (s.obuf (s.opos - 1))).2
    some { s with wordMru := s.wordMru.push s.obuf s.opos }
  else s.copy ibuf

/-- A round, or the end of the function: `none` where it returns `-1`. -/
def step (ibuf : ℕ → ℕ) (ilen encpos : ℕ) (s : RolzDecode) : RolzDecode ⊕ Option RolzDecode :=
  if s.ipos < ilen then
    match s.round ibuf with
    | none => .inl s
    | some s => if s.opos > encpos then .inr none else .inl s
  else if s.opos ≠ encpos then .inr none
  else .inr (some s)

end RolzDecode

namespace ZlingRolzDecoder

def init : ZlingRolzDecoder := ⟨fun _ => .reset, fun _ => .init⟩

/-- `Reset`, which leaves the ranks alone. -/
def reset (d : ZlingRolzDecoder) : ZlingRolzDecoder := { d with buckets := fun _ => .reset }

/-- `Decode`, from `decpos` on.  Every round takes a code. -/
def decode (d : ZlingRolzDecoder) (ibuf : ℕ → ℕ) (obuf : Mem) (ilen encpos decpos : ℕ) :
    Option (Option RolzDecode) :=
  let s : RolzDecode := { d with
    ipos := 0, opos := decpos, obuf := obuf, wordMru := .init }
  let s := (s.firstByte ibuf ilen 0).firstByte ibuf ilen 1
  loopTo (RolzDecode.step ibuf ilen encpos) (ilen + 1) s

end ZlingRolzDecoder

/-! ## What the buckets hold -/

theorem rollingAdd_lt (x y : ℕ) : rollingAdd x y < kBucketItemSize :=
  Nat.lt_succ_of_le Nat.and_le_right

theorem rollingSub_lt (x y : ℕ) : rollingSub x y < kBucketItemSize :=
  Nat.lt_succ_of_le Nat.and_le_right

/-- The name of a node, taken back. -/
theorem rollingSub_rollingSub {head node : ℕ} (hhead : head < kBucketItemSize)
    (hnode : node < kBucketItemSize) : rollingSub head (rollingSub head node) = node := by
  have hsize : kBucketItemSize = 2 ^ 12 := rfl
  rw [hsize] at hhead hnode
  simp only [rollingSub, hsize, Nat.and_two_pow_sub_one_eq_mod, toUInt32]
  omega

theorem load32_inj {m : Mem} {p q : ℕ} (h : load32 m p = load32 m q) {i : ℕ} (hi : i < 4) :
    m (p + i) = m (q + i) := by
  have hlt := fun x : UInt8 => x.toNat_lt
  have h0 := hlt (m p)
  have h0' := hlt (m q)
  have h1 := hlt (m (p + 1))
  have h1' := hlt (m (q + 1))
  have h2 := hlt (m (p + 2))
  have h2' := hlt (m (q + 2))
  have h3 := hlt (m (p + 3))
  have h3' := hlt (m (q + 3))
  simp only [load32] at h
  apply UInt8.toNat_inj.mp
  have hcases : i = 0 ∨ i = 1 ∨ i = 2 ∨ i = 3 := by omega
  rcases hcases with rfl | rfl | rfl | rfl
  · rw [Nat.add_zero, Nat.add_zero]
    omega
  all_goals omega

theorem load16_inj {m : Mem} {p q : ℕ} (h : load16 m p = load16 m q) {i : ℕ} (hi : i < 2) :
    m (p + i) = m (q + i) := by
  have h0 := (m p).toNat_lt
  have h0' := (m q).toNat_lt
  simp only [load16] at h
  apply UInt8.toNat_inj.mp
  have hcases : i = 0 ∨ i = 1 := by omega
  rcases hcases with rfl | rfl
  · rw [Nat.add_zero, Nat.add_zero]
    omega
  · omega

/-- Two places agree in their first `n` bytes. -/
def Alike (m : Mem) (buf1 buf2 n : ℕ) : Prop := ∀ i < n, m (buf1 + i) = m (buf2 + i)

theorem Alike.add {m : Mem} {buf1 buf2 n k : ℕ} (h : Alike m buf1 buf2 n)
    (h' : ∀ i < k, m (buf1 + n + i) = m (buf2 + n + i)) : Alike m buf1 buf2 (n + k) := by
  intro i hi
  by_cases hlt : i < n
  · exact h i hlt
  · have hrest := h' (i - n) (by omega)
    rwa [Nat.add_assoc, Nat.add_assoc, Nat.add_sub_cancel' (by omega)] at hrest

theorem commonWords_alike {m : Mem} {buf1 buf2 : ℕ} (k : ℕ) {p : ℕ} (h : Alike m buf1 buf2 p) :
    Alike m buf1 buf2 (commonWords m buf1 buf2 k p) ∧ commonWords m buf1 buf2 k p ≤ p + 4 * k := by
  induction k generalizing p with
  | zero => exact ⟨h, le_refl _⟩
  | succ k ih =>
    rw [commonWords]
    split
    · rename_i hword
      obtain ⟨halike, hle⟩ := ih (h.add fun i hi => load32_inj hword hi)
      exact ⟨halike, by omega⟩
    · exact ⟨h, Nat.le_add_right _ _⟩

theorem commonHalf_alike {m : Mem} {buf1 buf2 maxlen p : ℕ} (h : Alike m buf1 buf2 p)
    (hle : p ≤ maxlen) : Alike m buf1 buf2 (commonHalf m buf1 buf2 maxlen p) ∧
      commonHalf m buf1 buf2 maxlen p ≤ maxlen := by
  rw [commonHalf]
  split
  · rename_i hhalf
    exact ⟨h.add fun i hi => load16_inj hhalf.2 hi, hhalf.1⟩
  · exact ⟨h, hle⟩

theorem commonByte_alike {m : Mem} {buf1 buf2 maxlen p : ℕ} (h : Alike m buf1 buf2 p)
    (hle : p ≤ maxlen) : Alike m buf1 buf2 (commonByte m buf1 buf2 maxlen p) ∧
      commonByte m buf1 buf2 maxlen p ≤ maxlen := by
  rw [commonByte]
  split
  · rename_i hbyte
    refine ⟨h.add fun i hi => ?_, hbyte.1⟩
    obtain rfl : i = 0 := by omega
    exact hbyte.2
  · exact ⟨h, hle⟩

theorem getCommonLength_alike (m : Mem) (buf1 buf2 maxlen : ℕ) :
    Alike m buf1 buf2 (getCommonLength m buf1 buf2 maxlen) ∧
      getCommonLength m buf1 buf2 maxlen ≤ maxlen := by
  have hnone : Alike m buf1 buf2 0 := fun i hi => absurd hi (Nat.not_lt_zero i)
  rw [getCommonLength]
  split
  · exact ⟨hnone, Nat.zero_le _⟩
  · obtain ⟨hwords, hle⟩ := commonWords_alike (maxlen / 4) hnone
    obtain ⟨hhalf, hle⟩ := commonHalf_alike hwords (show _ ≤ maxlen by omega)
    exact commonByte_alike hhalf hle

namespace ZlingEncodeBucket

/-- The nodes of a bucket are nodes, and hold positions before `p`. -/
structure Valid (p : ℕ) (b : ZlingEncodeBucket) : Prop where
  head_lt : b.head < kBucketItemSize
  hash_lt : ∀ h, b.hash h = noNode ∨ b.hash h < kBucketItemSize
  suffix_lt : ∀ n, b.suffix n = noNode ∨ b.suffix n < kBucketItemSize
  position_lt : ∀ n, b.position n < p

theorem valid_reset {p : ℕ} (hp : 0 < p) : Valid p reset :=
  ⟨by decide, fun _ => Or.inl rfl, fun _ => Or.inl rfl,
    fun _ => by simpa [position, reset] using hp⟩

theorem Valid.mono {p q : ℕ} {b : ZlingEncodeBucket} (h : b.Valid p) (hle : p ≤ q) : b.Valid q :=
  ⟨h.head_lt, h.hash_lt, h.suffix_lt, fun n => (h.position_lt n).trans_le hle⟩

/-- The position stays apart from the bits of the hash. -/
theorem position_update (b : ZlingEncodeBucket) {pos : ℕ} (hpos : pos < 2 ^ 24) (hash n : ℕ) :
    (b.update pos hash).position n = if n = rollingAdd b.head 1 then pos else b.position n := by
  by_cases hn : n = rollingAdd b.head 1
  · have hmask : 0xffffff = 2 ^ 24 - 1 := rfl
    simp only [position, update, hn, Function.update_self, if_true]
    rw [Nat.or_comm, ← Nat.shiftLeft_add_eq_or_of_lt hpos, hmask, Nat.and_two_pow_sub_one_eq_mod,
      Nat.shiftLeft_eq]
    omega
  · simp only [position, update, Function.update_of_ne hn, if_neg hn]

theorem Valid.update {p pos : ℕ} {b : ZlingEncodeBucket} (h : b.Valid p) (hle : p ≤ pos)
    (hpos : pos < 2 ^ 24) (hash : ℕ) : (b.update pos hash).Valid (pos + 1) := by
  have hhead := rollingAdd_lt b.head 1
  refine ⟨hhead, fun k => ?_, fun n => ?_, fun n => ?_⟩
  · by_cases hk : k = hash % kBucketItemHash
    · simp only [ZlingEncodeBucket.update, hk, Function.update_self]
      exact Or.inr hhead
    · simp only [ZlingEncodeBucket.update, Function.update_of_ne hk]
      exact h.hash_lt k
  · by_cases hn : n = rollingAdd b.head 1
    · simp only [ZlingEncodeBucket.update, hn, Function.update_self]
      exact h.hash_lt _
    · simp only [ZlingEncodeBucket.update, Function.update_of_ne hn]
      exact h.suffix_lt n
  · rw [position_update b hpos]
    have hlt := h.position_lt n
    split <;> omega

/-- A match of the text at `pos`: `len` bytes, and a node with the place they are at. -/
structure IsMatch (b : ZlingEncodeBucket) (buf : Mem) (pos : ℕ) (best : ℕ × ℕ) : Prop where
  node_lt : best.2 < kBucketItemSize
  position_lt : b.position best.2 < pos
  len_le : best.1 ≤ kMatchMaxLen
  alike : Alike buf pos (b.position best.2) best.1

/-- What the loop finds, if it finds anything, is a match. -/
theorem bestMatch_isMatch {b : ZlingEncodeBucket} {buf : Mem} {pos : ℕ} (hashCheck : ℕ)
    (hsuffix : ∀ n, b.suffix n = noNode ∨ b.suffix n < kBucketItemSize) (depth : ℕ)
    {best : ℕ × ℕ} {node : ℕ} (hbest : kMatchMinLen ≤ best.1 → IsMatch b buf pos best)
    (hnode : node < kBucketItemSize) (hlt : b.position node < pos)
    (hmin : kMatchMinLen - 1 ≤ best.1) :
    kMatchMinLen ≤ (bestMatch b buf pos hashCheck depth best node).1 →
      IsMatch b buf pos (bestMatch b buf pos hashCheck depth best node) := by
  induction depth generalizing best node with
  | zero => exact hbest
  | succ depth ih =>
    rw [bestMatch]
    have hlen : ∀ len, len = (if b.check node = hashCheck ∧
          buf (pos + best.1) = buf (b.position node + best.1) then
          getCommonLength buf pos (b.position node) kMatchMaxLen else 0) →
        len > best.1 → IsMatch b buf pos (len, node) := by
      rintro len rfl hgt
      split at hgt
      · rename_i hcheck
        obtain ⟨halike, hle⟩ := getCommonLength_alike buf pos (b.position node) kMatchMaxLen
        rw [if_pos hcheck]
        exact ⟨hnode, hlt, hle, halike⟩
      · omega
    generalize (if b.check node = hashCheck ∧
      buf (pos + best.1) = buf (b.position node + best.1) then
      getCommonLength buf pos (b.position node) kMatchMaxLen else 0) = len at hlen
    dsimp only
    split
    · rename_i hlong
      exact fun _ => hlen len rfl hlong.1
    · have hnew : kMatchMinLen ≤ (if len > best.1 then (len, node) else best).1 →
          IsMatch b buf pos (if len > best.1 then (len, node) else best) := by
        split
        · rename_i hgt
          exact fun _ => hlen len rfl hgt
        · exact hbest
      have hmin' : kMatchMinLen - 1 ≤ (if len > best.1 then (len, node) else best).1 := by
        split
        · simp only
          omega
        · exact hmin
      split
      · exact hnew
      · rename_i hgo
        rw [not_or] at hgo
        exact ih hnew ((hsuffix node).resolve_left hgo.1) (by omega) hmin'

end ZlingEncodeBucket

/-- Whether there is a match or not, the position is entered. -/
theorem matchAndUpdate_snd (k : RolzLevel) (buckets : UInt8 → ZlingEncodeBucket) (buf : Mem)
    (pos : ℕ) : (matchAndUpdate k buckets buf pos).2 = Function.update buckets (buf (pos - 1))
      ((buckets (buf (pos - 1))).update pos (hashContext buf pos)) := by
  simp only [matchAndUpdate]
  split
  · rfl
  · split
    · rfl
    · split <;> rfl

/-- A match is named by how far its node lies back in the bucket, where the position itself
has been entered. -/
theorem matchAndUpdate_fst {k : RolzLevel} {buckets : UInt8 → ZlingEncodeBucket} {buf : Mem}
    {pos idx len : ℕ} (hvalid : (buckets (buf (pos - 1))).Valid pos) (hpos : pos < 2 ^ 24)
    (h : (matchAndUpdate k buckets buf pos).1 = some (idx, len)) :
    let b := (buckets (buf (pos - 1))).update pos (hashContext buf pos)
    kMatchMinLen ≤ len ∧ idx < kBucketItemSize ∧
      b.IsMatch buf pos (len, rollingSub b.head idx) := by
  intro b
  have hb : b.Valid (pos + 1) := hvalid.update le_rfl hpos _
  have hhead : b.head = rollingAdd (buckets (buf (pos - 1))).head 1 := rfl
  simp only [matchAndUpdate] at h
  split at h
  · simp at h
  · rename_i hnode
    rw [not_or] at hnode
    have hlt := (hvalid.hash_lt _).resolve_left hnode.1
    -- the entry found is not the one that has just been made
    have hnew : ¬ (buckets (buf (pos - 1))).hash (hashContext buf pos % kBucketItemHash) =
        rollingAdd (buckets (buf (pos - 1))).head 1 := hnode.2
    have hpast : b.position ((buckets (buf (pos - 1))).hash (hashContext buf pos %
        kBucketItemHash)) < pos := by
      rw [ZlingEncodeBucket.position_update _ hpos, if_neg hnew]
      exact hvalid.position_lt _
    split at h
    · simp at h
    · rename_i hlong
      rw [not_lt] at hlong
      split at h
      · simp at h
      · simp only [Option.some.injEq, Prod.mk.injEq] at h
        obtain ⟨rfl, rfl⟩ := h
        have hmatch := ZlingEncodeBucket.bestMatch_isMatch _ hb.suffix_lt _
          (fun hmin => absurd hmin (by decide)) hlt hpast le_rfl hlong
        refine ⟨hlong, rollingSub_lt _ _, ?_⟩
        rw [rollingSub_rollingSub hb.head_lt hmatch.node_lt]
        exact hmatch

/-- The two sides have the same positions in the same places. -/
def SameBuckets (e : UInt8 → ZlingEncodeBucket) (d : UInt8 → ZlingDecodeBucket) : Prop :=
  ∀ c, (e c).head = (d c).head ∧ ∀ n, (e c).position n = (d c).offset n

theorem SameBuckets.update {e : UInt8 → ZlingEncodeBucket} {d : UInt8 → ZlingDecodeBucket}
    (h : SameBuckets e d) (buf : Mem) {pos : ℕ} (hpos : pos < 2 ^ 24) (hash idx : ℕ) :
    SameBuckets (Function.update e (buf (pos - 1)) ((e (buf (pos - 1))).update pos hash))
      (getMatchAndUpdate d buf pos idx).2 := by
  intro c
  by_cases hc : c = buf (pos - 1)
  · simp only [getMatchAndUpdate, hc, Function.update_self]
    obtain ⟨hhead, hposition⟩ := h (buf (pos - 1))
    refine ⟨congrArg (fun x => rollingAdd x 1) hhead, fun n => ?_⟩
    rw [ZlingEncodeBucket.position_update _ hpos, hposition, hhead]
    simp only [ZlingDecodeBucket.update, Function.update_apply]
  · simp only [getMatchAndUpdate, Function.update_of_ne hc]
    exact h c

/-- The position that the decoder finds under a name. -/
theorem SameBuckets.position {e : UInt8 → ZlingEncodeBucket} {d : UInt8 → ZlingDecodeBucket}
    (h : SameBuckets e d) (buf : Mem) {pos : ℕ} (hpos : pos < 2 ^ 24) (hash idx : ℕ) :
    let b := (e (buf (pos - 1))).update pos hash
    (getMatchAndUpdate d buf pos idx).1 = b.position (rollingSub b.head idx) := by
  have hnew := h.update buf hpos hash idx (buf (pos - 1))
  simp only [Function.update_self, getMatchAndUpdate] at hnew
  simp only [getMatchAndUpdate, hnew.1, hnew.2]

/-! ## Copies by words -/

section Copy

variable {m text : Mem} {p dist n : ℕ}

theorem agree_zero_iff {m m' : Mem} {n : ℕ} : Mem.Agree m m' 0 n ↔ ∀ i < n, m i = m' i := by
  simp [Mem.Agree, Mem.SameBytes]

theorem agree_update (hm : Mem.Agree m text 0 p) {b : UInt8} (hb : b = text p) :
    Mem.Agree (Function.update m p b) text 0 (p + 1) := by
  have h := sameBytes_update hm
  rwa [Nat.zero_add, ← hb] at h

/-- Of a word from `dist` bytes before, as many bytes are right as had been put down. -/
theorem agree_copyWord (hm : Mem.Agree m text 0 p) (hfits : (Piece.copy dist n).Fits text p) :
    Mem.Agree (copyWord m (p - dist) p) text 0 (p + min n (min 4 dist)) := by
  obtain ⟨hpos, hle, hrepeat⟩ := hfits
  rw [agree_zero_iff] at hm ⊢
  intro q hq
  rw [copyWord]
  split
  · rename_i hin
    have hbyte := hrepeat (q - p) (by omega)
    rw [show p + (q - p) = q by omega] at hbyte
    rw [hm _ (by omega), hbyte]
    exact congrArg text (by omega)
  · exact hm q (by omega)

theorem writesWithin_copyWords (m : Mem) (src dst k : ℕ) :
    Mem.WritesWithin m (copyWords m src dst k) dst (4 * k) := by
  induction k generalizing m src dst with
  | zero => exact Mem.writesWithin_refl _ _ _
  | succ k ih =>
    have hword : Mem.WritesWithin m (copyWord m src dst) dst (4 * (k + 1)) := by
      intro q hq
      exact if_neg (by omega)
    exact hword.trans ((ih _ (src + 4) (dst + 4)).mono (by omega) (by omega))

/-- The part of a copy behind its first `k` bytes. -/
theorem fits_drop (hfits : (Piece.copy dist n).Fits text p) (k : ℕ) :
    (Piece.copy dist (n - k)).Fits text (p + k) := by
  obtain ⟨hpos, hle, hrepeat⟩ := hfits
  refine ⟨hpos, by omega, fun i hi => ?_⟩
  have hbyte := hrepeat (k + i) (by omega)
  rwa [← Nat.add_assoc] at hbyte

theorem agree_copyWords (hm : Mem.Agree m text 0 p) (hfits : (Piece.copy dist n).Fits text p)
    (hfour : 4 ≤ dist) (k : ℕ) :
    Mem.Agree (copyWords m (p - dist) p k) text 0 (p + min n (4 * k)) := by
  induction k generalizing m p n with
  | zero => simpa [copyWords] using hm
  | succ k ih =>
    have hword := agree_copyWord hm hfits
    have hdist := hfits.2.1
    rw [copyWords]
    by_cases hn : 4 ≤ n
    · rw [show p + min n (min 4 dist) = p + 4 by omega] at hword
      have hrest := ih hword (fits_drop hfits 4)
      rwa [show p + 4 - dist = p - dist + 4 by omega,
        show p + 4 + min (n - 4) (4 * k) = p + min n (4 * (k + 1)) by omega] at hrest
    · -- the words that follow are behind the end of the copy
      rw [show p + min n (min 4 dist) = p + n by omega] at hword
      rw [show p + min n (4 * (k + 1)) = p + n by omega]
      rw [agree_zero_iff] at hword ⊢
      intro q hq
      rw [writesWithin_copyWords _ _ _ _ q (Or.inl (by omega))]
      exact hword q hq

/-- A copy repeats itself at twice the distance as well. -/
theorem fits_double (hfits : (Piece.copy dist n).Fits text p) :
    (Piece.copy (2 * dist) (n - dist)).Fits text (p + dist) := by
  obtain ⟨hpos, hle, hrepeat⟩ := hfits
  refine ⟨by omega, by omega, fun i hi => ?_⟩
  have hnear := hrepeat (dist + i) (by omega)
  have hfar := hrepeat i (by omega)
  rw [← Nat.add_assoc] at hnear
  rw [hnear, show p + dist + i - dist = p + i by omega, hfar]
  exact congrArg text (by omega)

/-- A round of the first loop puts down `dist` bytes, and goes on with twice the distance. -/
theorem incrementalCopy_double (hm : Mem.Agree m text 0 p)
    (hfits : (Piece.copy dist n).Fits text p) (hfour : dist < 4) (hn : dist ≤ n) (fuel : ℕ) :
    ∃ m', incrementalCopyFastPath (fuel + 1) m (p - dist) p n =
        incrementalCopyFastPath fuel m' (p + dist - 2 * dist) (p + dist) (n - dist) ∧
      Mem.Agree m' text 0 (p + dist) ∧
      (Piece.copy (2 * dist) (n - dist)).Fits text (p + dist) := by
  have hle := hfits.2.1
  refine ⟨copyWord m (p - dist) p, ?_, ?_, fits_double hfits⟩
  · rw [incrementalCopyFastPath, if_pos (by omega), show p - (p - dist) = dist by omega,
      show p + dist - 2 * dist = p - dist by omega]
  · have hword := agree_copyWord hm hfits
    rwa [show p + min n (min 4 dist) = p + dist by omega] at hword

/-- Once the distance is four bytes the words are copied. -/
theorem incrementalCopy_words (hm : Mem.Agree m text 0 p)
    (hfits : (Piece.copy dist n).Fits text p) (hfour : 4 ≤ dist) (fuel : ℕ) :
    ∃ out, incrementalCopyFastPath (fuel + 1) m (p - dist) p n = some out ∧
      Mem.Agree out text 0 (p + n) := by
  have hle := hfits.2.1
  have hwords := agree_copyWords hm hfits hfour ((n + 3) / 4)
  rw [show p + min n (4 * ((n + 3) / 4)) = p + n by omega] at hwords
  exact ⟨_, by rw [incrementalCopyFastPath, if_neg (by omega)], hwords⟩

/-- From any distance the copy ends, and is right. -/
theorem incrementalCopy_spec (hm : Mem.Agree m text 0 p)
    (hfits : (Piece.copy dist n).Fits text p) (hn : 4 ≤ n) :
    ∃ out, incrementalCopyFastPath 3 m (p - dist) p n = some out ∧
      Mem.Agree out text 0 (p + n) := by
  have hpos := hfits.1
  by_cases hfour : 4 ≤ dist
  · exact incrementalCopy_words hm hfits hfour 2
  · obtain ⟨m₁, heq₁, hm₁, hfits₁⟩ := incrementalCopy_double hm hfits (by omega) (by omega) 2
    by_cases htwo : 4 ≤ 2 * dist
    · obtain ⟨out, heq, hout⟩ := incrementalCopy_words hm₁ hfits₁ htwo 1
      exact ⟨out, heq₁.trans heq, by rwa [show p + dist + (n - dist) = p + n by omega] at hout⟩
    · obtain rfl : dist = 1 := by omega
      obtain ⟨m₂, heq₂, hm₂, hfits₂⟩ :=
        incrementalCopy_double hm₁ hfits₁ (by omega) (by omega) 1
      obtain ⟨out, heq, hout⟩ := incrementalCopy_words hm₂ hfits₂ (by omega) 0
      refine ⟨out, heq₁.trans (heq₂.trans heq), ?_⟩
      rwa [show p + 1 + 2 * 1 + (n - 1 - 2 * 1) = p + n by omega] at hout

end Copy

/-! ## The two sides in step -/

/-- The codes at the beginning of the decoder's input. -/
def Reads (ibuf : ℕ → ℕ) (l : List ℕ) : Prop := ∀ i < l.length, ibuf i = l.getD i 0

theorem Reads.mono {ibuf : ℕ → ℕ} {l l' : List ℕ} (h : Reads ibuf l') (hl : l <+: l') :
    Reads ibuf l := by
  obtain ⟨t, rfl⟩ := hl
  intro i hi
  rw [h i (by rw [List.length_append]; omega), List.getD_append _ _ _ _ hi]

/-- The codes behind those that have been read. -/
theorem Reads.next {ibuf : ℕ → ℕ} {l l' : List ℕ} (h : Reads ibuf (l ++ l')) {i : ℕ}
    (hi : i < l'.length) : ibuf (l.length + i) = l'.getD i 0 := by
  rw [h _ (by rw [List.length_append]; omega), List.getD_append_right _ _ _ _ (by omega),
    Nat.add_sub_cancel_left]

/-- A code, with the index of a match. -/
abbrev ZlingItem := ℕ × Option ℕ

namespace ZlingItem

def codes (item : ZlingItem) : List ℕ := item.1 :: item.2.toList

/-- How many bytes of the text an item stands for. -/
def size (item : ZlingItem) : ℕ :=
  if item.1 < 256 then 1 else if item.1 < 258 then 2 else item.1 - 258 + kMatchMinLen

/-- A literal or a word, or a match with the name of its place. -/
def Valid : ZlingItem → Prop
  | (c, none) => c < 258
  | (c, some idx) =>
    258 ≤ c ∧ c < 258 + (kMatchMaxLen - kMatchMinLen + 1) ∧ idx < kBucketItemSize

theorem size_pos (item : ZlingItem) : 0 < item.size := by
  rw [size]
  split
  · exact Nat.one_pos
  · split
    · exact Nat.two_pos
    · exact Nat.lt_of_lt_of_le (by decide) (Nat.le_add_left kMatchMinLen _)

theorem length_codes (item : ZlingItem) : 0 < item.codes.length ∧ item.codes.length ≤ 2 := by
  obtain ⟨c, idx⟩ := item
  cases idx <;> simp [codes]

/-- A byte that is stored, or a rank. -/
theorem valid_byte (b : UInt8) : Valid (b.toNat, none) ∧ size (b.toNat, none) = 1 :=
  ⟨b.toNat_lt.trans (by decide), if_pos b.toNat_lt⟩

end ZlingItem

/-- Some items, of which the first begins at the code `i`, all begin before the code `n`. -/
def BeginBefore (n : ℕ) : ℕ → List ZlingItem → Prop
  | _, [] => True
  | i, item :: items => i < n ∧ BeginBefore n (i + item.codes.length) items

theorem beginBefore_append {n i : ℕ} {items : List ZlingItem} {item : ZlingItem} :
    BeginBefore n i (items ++ [item]) ↔
      BeginBefore n i items ∧ i + (items.flatMap ZlingItem.codes).length < n := by
  induction items generalizing i with
  | nil => simp [BeginBefore]
  | cons first items ih =>
    simp only [List.cons_append, BeginBefore, ih, List.flatMap_cons, List.length_append, and_assoc,
      Nat.add_assoc]

/-- The words of a text that are known are the same. -/
theorem wordAt_congr {m m' : Mem} {p n : ℕ} (h : Mem.Agree m m' 0 n) (hp : p + 1 < n) :
    wordAt m p = wordAt m' p := by
  rw [agree_zero_iff] at h
  rw [wordAt, wordAt, h p (by omega), h (p + 1) hp]

theorem WordMru.push_congr {m m' : Mem} {p : ℕ} (h : Mem.Agree m m' 0 p) (hp : 2 ≤ p)
    (mru : WordMru) : mru.push m p = mru.push m' p := by
  have hword := wordAt_congr h (show p - 2 + 1 < p by omega)
  rw [agree_zero_iff] at h
  simp only [push, hword, h (p - 3) (by omega)]

theorem WordMru.pushNew_congr {m m' : Mem} {p : ℕ} (h : Mem.Agree m m' 0 p) (hp : 2 ≤ p)
    (mru : WordMru) : mru.pushNew m p = mru.pushNew m' p := by
  have hword := wordAt_congr h (show p - 2 + 1 < p by omega)
  have hpush := push_congr h hp mru
  rw [agree_zero_iff] at h
  simp only [pushNew, hword, hpush, h (p - 3) (by omega)]

/-- The bytes of a word. -/
theorem wordAt_bytes (m : Mem) (p : ℕ) :
    UInt8.ofNat (wordAt m p >>> 8 &&& 0xff) = m p ∧
      UInt8.ofNat (wordAt m p &&& 0xff) = m (p + 1) := by
  have hlo : (m (p + 1)).toNat < 2 ^ 8 := (m (p + 1)).toNat_lt
  have hhi : (m p).toNat < 2 ^ 8 := (m p).toNat_lt
  have hmask : 0xff = 2 ^ 8 - 1 := rfl
  rw [wordAt, ← Nat.shiftLeft_add_eq_or_of_lt hlo, hmask, Nat.and_two_pow_sub_one_eq_mod,
    Nat.and_two_pow_sub_one_eq_mod, Nat.shiftLeft_eq, Nat.shiftRight_eq_div_pow]
  constructor
  · apply UInt8.toNat_inj.mp
    rw [UInt8.toNat_ofNat']
    omega
  · apply UInt8.toNat_inj.mp
    rw [UInt8.toNat_ofNat']
    omega

/-- The encoder still looks for matches. -/
def Looks (ilen ipos : ℕ) : Prop := ipos + kMatchMaxLen + 16 < ilen

theorem Looks.mono {ilen p q : ℕ} (h : Looks ilen q) (hle : p ≤ q) : Looks ilen p := by
  simp only [Looks] at h ⊢
  omega

/-- What the decoder shares with the encoder, of the first `s.ipos` bytes of the text.  The
buckets are the same for as long as the encoder keeps them. -/
structure InStep (text : Mem) (ilen : ℕ) (s : RolzEncode) (d : RolzDecode) : Prop where
  ipos_eq : d.ipos = s.obuf.length
  opos_eq : d.opos = s.ipos
  bytes : Mem.Agree d.obuf text 0 s.ipos
  wordMru_eq : d.wordMru = s.wordMru
  mtf_eq : ∀ c, (d.mtf c).table = (s.mtf c).table
  same : Looks ilen s.ipos → SameBuckets s.buckets d.buckets
  valid : Looks ilen s.ipos → ∀ c, (s.buckets c).Valid s.ipos

/-- The buckets of the encoder after it has looked for a match. -/
def RolzEncode.looked (k : RolzLevel) (ibuf : Mem) (ilen : ℕ) (s : RolzEncode) :
    UInt8 → ZlingEncodeBucket :=
  if s.ipos + kMatchMaxLen + 16 < ilen then (matchAndUpdate k s.buckets ibuf s.ipos).2
  else s.buckets

/-- What a round does. -/
theorem RolzEncode.round_cases (k : RolzLevel) (ibuf : Mem) (ilen : ℕ) (s : RolzEncode) :
    (∃ idx len, Looks ilen s.ipos ∧
      (matchAndUpdate k s.buckets ibuf s.ipos).1 = some (idx, len) ∧
      s.round k ibuf ilen = { s with
        buckets := s.looked k ibuf ilen
        obuf := s.obuf ++ [258 + len - kMatchMinLen, idx]
        ipos := s.ipos + len
        wordMru := s.wordMru.pushNew ibuf (s.ipos + len) }) ∨
    s.round k ibuf ilen = { s with buckets := s.looked k ibuf ilen }.wordOrLiteral ibuf ilen := by
  by_cases hlooks : s.ipos + kMatchMaxLen + 16 < ilen
  · simp only [RolzEncode.round, if_pos hlooks, RolzEncode.looked]
    cases hfound : matchAndUpdate k s.buckets ibuf s.ipos with
    | mk found buckets =>
      cases found with
      | none => exact Or.inr rfl
      | some r => exact Or.inl ⟨r.1, r.2, hlooks, rfl, rfl⟩
  · simp only [RolzEncode.round, if_neg hlooks, RolzEncode.looked]
    exact Or.inr trivial

section Steps

variable {text : Mem} {ilen : ℕ} {k : RolzLevel} {s : RolzEncode} {d : RolzDecode}

/-- The buckets after both sides have entered a position. -/
theorem InStep.looked (h : InStep text ilen s d) (hlen : ilen ≤ 2 ^ 24) {obuf : Mem}
    (hobuf : obuf (s.ipos - 1) = text (s.ipos - 1)) (idx : ℕ) (hlooks : Looks ilen s.ipos) :
    SameBuckets (s.looked k text ilen) (getMatchAndUpdate d.buckets obuf s.ipos idx).2 ∧
      ∀ c, (s.looked k text ilen c).Valid (s.ipos + 1) := by
  have hsmall : s.ipos < 2 ^ 24 := by
    simp only [Looks] at hlooks
    omega
  rw [RolzEncode.looked, if_pos (show s.ipos + kMatchMaxLen + 16 < ilen from hlooks),
    matchAndUpdate_snd]
  refine ⟨?_, fun c => ?_⟩
  · have hsame := (h.same hlooks).update obuf hsmall (hashContext text s.ipos) idx
    rwa [hobuf] at hsame
  · by_cases hc : c = text (s.ipos - 1)
    · rw [hc, Function.update_self]
      exact (h.valid hlooks _).update le_rfl hsmall _
    · rw [Function.update_of_ne hc]
      exact (h.valid hlooks c).mono (Nat.le_succ _)

/-- A match is decoded to the bytes that it stands for. -/
theorem InStep.copy (h : InStep text ilen s d) (hlen : ilen ≤ 2 ^ 24) (hpos : 0 < s.ipos)
    {idx len : ℕ} (hlooks : Looks ilen s.ipos)
    (hfound : (matchAndUpdate k s.buckets text s.ipos).1 = some (idx, len)) {s' : RolzEncode}
    (hs' : s' = { s with
      buckets := s.looked k text ilen
      obuf := s.obuf ++ [258 + len - kMatchMinLen, idx]
      ipos := s.ipos + len
      wordMru := s.wordMru.pushNew text (s.ipos + len) })
    {ibuf : ℕ → ℕ} (hreads : Reads ibuf s'.obuf) :
    ∃ d', d.round ibuf = some d' ∧ InStep text ilen s' d' ∧ s'.ipos ≤ ilen ∧
      ∃ item : ZlingItem, item.Valid ∧ s'.obuf = s.obuf ++ item.codes ∧
        s'.ipos = s.ipos + item.size := by
  have hsmall : s.ipos < 2 ^ 24 := by
    simp only [Looks] at hlooks
    omega
  obtain ⟨hmin, hidx, hmatch⟩ := matchAndUpdate_fst (h.valid hlooks _) hsmall hfound
  have hmax : len ≤ 259 := hmatch.len_le
  have hfour : 4 ≤ len := hmin
  have hprev : d.obuf (s.ipos - 1) = text (s.ipos - 1) :=
    agree_zero_iff.mp h.bytes _ (by omega)
  subst hs'
  -- the two codes
  have hcode : ibuf d.ipos = 258 + len - kMatchMinLen := by
    have hget := hreads.next (i := 0) (by simp)
    rw [h.ipos_eq]
    exact hget
  have hname : ibuf (d.ipos + 1) = idx := by
    have hget := hreads.next (i := 1) (by simp)
    rw [h.ipos_eq]
    exact hget
  -- the place of the match, and the copy from there
  have hplace := (h.same hlooks).position d.obuf hsmall (hashContext text s.ipos) idx
  rw [hprev] at hplace
  have hoff := hmatch.position_lt
  have halike := hmatch.alike
  rw [← hplace] at hoff halike
  have hbuckets := h.looked (k := k) hlen hprev idx hlooks
  generalize hf : getMatchAndUpdate d.buckets d.obuf s.ipos idx = found at hoff halike hbuckets
  have hfits : (Piece.copy (s.ipos - found.1) len).Fits text s.ipos := by
    refine ⟨Nat.sub_pos_of_lt hoff, Nat.sub_le _ _, fun i hi => (halike i hi).trans ?_⟩
    exact congrArg text (by omega)
  obtain ⟨out, hout, hbytes⟩ := incrementalCopy_spec h.bytes hfits hfour
  rw [Nat.sub_sub_self hoff.le] at hout
  have hlong : 258 + len - kMatchMinLen - 258 + kMatchMinLen = len := by
    simp only [kMatchMinLen]
    omega
  have hbig : 258 ≤ 258 + len - kMatchMinLen := by
    simp only [kMatchMinLen]
    omega
  have hround : d.round ibuf = some { d with
      ipos := d.ipos + 2
      opos := s.ipos + len
      obuf := out
      buckets := found.2
      wordMru := d.wordMru.pushNew out (s.ipos + len) } := by
    rw [RolzDecode.round, hcode, if_neg (by omega), if_neg (by omega), if_neg (by omega)]
    simp only [RolzDecode.copy, hcode, hname, hlong, h.opos_eq, hf, hout, Option.map_some]
  refine ⟨_, hround, ⟨?_, rfl, hbytes, ?_, h.mtf_eq, ?_, ?_⟩, ?_,
    (258 + len - kMatchMinLen, some idx), ⟨hbig, ?_, hidx⟩, rfl, ?_⟩
  · simp [h.ipos_eq]
  · simp only [h.wordMru_eq]
    exact WordMru.pushNew_congr hbytes (by omega) _
  · exact fun _ => hbuckets.1
  · exact fun _ c => (hbuckets.2 c).mono (Nat.add_le_add_left (by omega) _)
  · simp only [Looks, kMatchMaxLen] at hlooks ⊢
    omega
  · simp only [kMatchMaxLen, kMatchMinLen]
    omega
  · rw [ZlingItem.size, if_neg (by simp only; omega), if_neg (by simp only; omega), hlong]

theorem InStep.prev (h : InStep text ilen s d) (hpos : 0 < s.ipos) :
    d.obuf (d.opos - 1) = text (s.ipos - 1) := by
  rw [h.opos_eq]
  exact agree_zero_iff.mp h.bytes _ (by omega)

/-- The two bytes of a word are put down. -/
theorem InStep.word (h : InStep text ilen s d) (hlen : ilen ≤ 2 ^ 24) (hpos : 0 < s.ipos)
    (code : ℕ) :
    InStep text ilen { s with
      buckets := s.looked k text ilen
      obuf := s.obuf ++ [code]
      ipos := s.ipos + 2 } (d.word (wordAt text s.ipos)) := by
  obtain ⟨hfirst, hsecond⟩ := wordAt_bytes text s.ipos
  have hone := agree_update h.bytes hfirst
  have htwo := agree_update hone hsecond
  have hprev := h.prev hpos
  rw [h.opos_eq] at hprev
  have hobuf : Function.update d.obuf s.ipos (UInt8.ofNat (wordAt text s.ipos >>> 8 &&& 0xff))
      (s.ipos - 1) = text (s.ipos - 1) := by
    rw [Function.update_of_ne (by omega), hprev]
  refine ⟨?_, ?_, ?_, h.wordMru_eq, h.mtf_eq, fun hlooks => ?_, fun hlooks c => ?_⟩
  · simp [RolzDecode.word, h.ipos_eq]
  · simp [RolzDecode.word, h.opos_eq]
  · simp only [RolzDecode.word, h.opos_eq]
    exact htwo
  · simp only [RolzDecode.word, h.opos_eq]
    exact (h.looked hlen hobuf 0 (hlooks.mono (Nat.le_add_right _ 2))).1
  · exact ((h.looked hlen hobuf 0 (hlooks.mono (Nat.le_add_right _ 2))).2 c).mono (by simp)

/-- The byte of a literal is put down. -/
theorem InStep.literal (h : InStep text ilen s d) (hlen : ilen ≤ 2 ^ 24) (hpos : 0 < s.ipos)
    {ibuf : ℕ → ℕ}
    (hcode : ibuf d.ipos = ((s.mtf (text (s.ipos - 1))).encode (text s.ipos)).1.toNat) :
    InStep text ilen { s with
      buckets := s.looked k text ilen
      obuf := s.obuf ++ [((s.mtf (text (s.ipos - 1))).encode (text s.ipos)).1.toNat]
      ipos := s.ipos + 1
      mtf := Function.update s.mtf (text (s.ipos - 1))
        ((s.mtf (text (s.ipos - 1))).encode (text s.ipos)).2
      wordMru := s.wordMru.push text (s.ipos + 1) } (d.literal ibuf) := by
  have hprev := h.prev hpos
  obtain ⟨hbyte, htable⟩ := mtf_decode_encode (h.mtf_eq (text (s.ipos - 1))) (text s.ipos)
  have hone := agree_update h.bytes hbyte
  rw [h.opos_eq] at hprev
  have hobuf : Function.update d.obuf s.ipos
      ((d.mtf (text (s.ipos - 1))).decode ((s.mtf (text (s.ipos - 1))).encode (text s.ipos)).1).1
      (s.ipos - 1) = text (s.ipos - 1) := by
    rw [Function.update_of_ne (by omega), hprev]
  refine ⟨?_, ?_, ?_, ?_, fun c => ?_, fun hlooks => ?_, fun hlooks c => ?_⟩
  · simp [RolzDecode.literal, h.ipos_eq]
  · simp [RolzDecode.literal, h.opos_eq]
  · simp only [RolzDecode.literal, hcode, h.opos_eq, hprev, UInt8.ofNat_toNat]
    exact hone
  · simp only [RolzDecode.literal, hcode, h.opos_eq, hprev, UInt8.ofNat_toNat, h.wordMru_eq]
    exact WordMru.push_congr hone (by omega) _
  · simp only [RolzDecode.literal, hcode, h.opos_eq, hprev, UInt8.ofNat_toNat]
    by_cases hc : c = text (s.ipos - 1)
    · rw [hc, Function.update_self, Function.update_self, htable]
    · rw [Function.update_of_ne hc, Function.update_of_ne hc, h.mtf_eq]
  · simp only [RolzDecode.literal, hcode, h.opos_eq, hprev, UInt8.ofNat_toNat]
    exact (h.looked hlen hobuf 0 (hlooks.mono (Nat.le_succ _))).1
  · exact (h.looked hlen hobuf 0 (hlooks.mono (Nat.le_succ _))).2 c

/-- Both sides do the same in a round. -/
theorem InStep.round (h : InStep text ilen s d) (hlen : ilen ≤ 2 ^ 24) (hpos : 0 < s.ipos)
    (hlt : s.ipos < ilen) {ibuf : ℕ → ℕ} (hreads : Reads ibuf (s.round k text ilen).obuf) :
    ∃ d', d.round ibuf = some d' ∧ InStep text ilen (s.round k text ilen) d' ∧
      (s.round k text ilen).ipos ≤ ilen ∧
      ∃ item : ZlingItem, item.Valid ∧ (s.round k text ilen).obuf = s.obuf ++ item.codes ∧
        (s.round k text ilen).ipos = s.ipos + item.size := by
  cases RolzEncode.round_cases k text ilen s with
  | inl hmatch =>
    obtain ⟨idx, len, hlooks, hfound, heq⟩ := hmatch
    exact h.copy hlen hpos hlooks hfound heq hreads
  | inr heq =>
    have hprev := h.prev hpos
    have hcode : ∀ c, (s.round k text ilen).obuf = s.obuf ++ [c] → ibuf d.ipos = c := by
      intro c hc
      rw [hc] at hreads
      rw [h.ipos_eq]
      exact hreads.next (i := 0) (by simp)
    rw [RolzEncode.wordOrLiteral] at heq
    dsimp only at heq
    by_cases hfirst : s.ipos + 1 < ilen ∧
        (s.wordMru.words (text (s.ipos - 1))).1 = wordAt text s.ipos
    · rw [if_pos hfirst] at heq
      have hc := hcode 256 (by rw [heq])
      refine ⟨d.word (wordAt text s.ipos), ?_, ?_, ?_, (256, none),
        show 256 < 258 by decide, ?_, ?_⟩
      · rw [RolzDecode.round, hc, if_neg (by decide), if_pos rfl, hprev, h.wordMru_eq, hfirst.2]
      · rw [heq]
        exact h.word hlen hpos 256
      · rw [heq]
        exact hfirst.1
      · rw [heq]
        rfl
      · rw [heq]
        rfl
    · rw [if_neg hfirst] at heq
      by_cases hsecond : s.ipos + 1 < ilen ∧
          (s.wordMru.words (text (s.ipos - 1))).2 = wordAt text s.ipos
      · rw [if_pos hsecond] at heq
        have hc := hcode 257 (by rw [heq])
        have hword := h.word (k := k) hlen hpos 257
        let d' := d.word (wordAt text s.ipos)
        refine ⟨{ d' with wordMru := d'.wordMru.push d'.obuf d'.opos }, ?_, ?_, ?_, (257, none),
          show 257 < 258 by decide, ?_, ?_⟩
        · rw [RolzDecode.round, hc, if_neg (by decide), if_neg (by decide), if_pos rfl, hprev,
            h.wordMru_eq, hsecond.2]
        · rw [heq]
          refine ⟨hword.ipos_eq, hword.opos_eq, hword.bytes, ?_, hword.mtf_eq, hword.same,
            hword.valid⟩
          simp only [d', hword.wordMru_eq, hword.opos_eq]
          exact WordMru.push_congr hword.bytes (Nat.le_add_left _ _) _
        · rw [heq]
          exact hsecond.1
        · rw [heq]
          rfl
        · rw [heq]
          rfl
      · rw [if_neg hsecond] at heq
        have hc := hcode _ (by rw [heq])
        have hsmall := ((s.mtf (text (s.ipos - 1))).encode (text s.ipos)).1.toNat_lt
        obtain ⟨hvalid, hsize⟩ :=
          ZlingItem.valid_byte ((s.mtf (text (s.ipos - 1))).encode (text s.ipos)).1
        refine ⟨d.literal ibuf, ?_, ?_, ?_, _, hvalid, ?_, ?_⟩
        · rw [RolzDecode.round, hc, if_pos hsmall]
        · rw [heq]
          exact h.literal hlen hpos hc
        · rw [heq]
          exact hlt
        · rw [heq]
          rfl
        · rw [heq, hsize]

end Steps

/-- From `s` on the encoder has come to `s'`, and on what it has written the decoder comes from
`d` to where it is in step again. -/
structure RolzEncoded (text : Mem) (ilen olen : ℕ) (s : RolzEncode) (d : RolzDecode)
    (s' : RolzEncode) : Prop where
  ipos_le : s'.ipos ≤ ilen
  length_le : s'.obuf.length ≤ olen
  forward : s.obuf.length + 1 < olen → s.ipos < ilen → s.ipos < s'.ipos
  full : s'.ipos < ilen → olen ≤ s'.obuf.length + 1
  items : ∃ items : List ZlingItem, (∀ item ∈ items, item.Valid) ∧
    s'.obuf = s.obuf ++ items.flatMap ZlingItem.codes ∧
    s'.ipos = s.ipos + (items.map ZlingItem.size).sum
  decodes : ∀ ibuf, Reads ibuf s'.obuf → ∀ fuel, s'.obuf.length - s.obuf.length < fuel →
    ∃ d', loopTo (RolzDecode.step ibuf s'.obuf.length s'.ipos) fuel d = some (some d') ∧
      InStep text ilen s' d'

theorem RolzEncoded.ipos_ge {text : Mem} {ilen olen : ℕ} {s s' : RolzEncode} {d : RolzDecode}
    (h : RolzEncoded text ilen olen s d s') : s.ipos ≤ s'.ipos := by
  obtain ⟨items, -, -, hsize⟩ := h.items
  omega

section Run

variable {text : Mem} {ilen olen : ℕ} {k : RolzLevel} {s s₁ s' : RolzEncode} {d d₁ : RolzDecode}

theorem RolzEncoded.refl (h : InStep text ilen s d) (hle : s.ipos ≤ ilen)
    (hroom : s.obuf.length ≤ olen) (hend : ¬ (s.obuf.length + 1 < olen ∧ s.ipos < ilen)) :
    RolzEncoded text ilen olen s d s := by
  refine ⟨hle, hroom, fun h1 h2 => absurd ⟨h1, h2⟩ hend, fun hlt => ?_, ⟨[], by simp⟩, ?_⟩
  · by_contra hshort
    exact hend ⟨by omega, hlt⟩
  intro ibuf _ fuel hfuel
  obtain ⟨fuel, rfl⟩ := Nat.exists_eq_succ_of_ne_zero (by omega : fuel ≠ 0)
  refine ⟨d, loopTo_return ?_ fuel, h⟩
  rw [RolzDecode.step, if_neg (by rw [h.ipos_eq]; exact lt_irrefl _), h.opos_eq,
    if_neg (not_not_intro rfl)]

/-- One more round in front. -/
theorem RolzEncoded.cons {item : ZlingItem} (h : InStep text ilen s d)
    (hround : ∀ ibuf, Reads ibuf s₁.obuf → ∃ d₁, d.round ibuf = some d₁ ∧ InStep text ilen s₁ d₁)
    (hvalid : item.Valid) (hcodes : s₁.obuf = s.obuf ++ item.codes)
    (hsize : s₁.ipos = s.ipos + item.size)
    (hrest : ∀ d₁, InStep text ilen s₁ d₁ → RolzEncoded text ilen olen s₁ d₁ s') :
    RolzEncoded text ilen olen s d s' := by
  obtain ⟨d₀, -, hd₀⟩ := hround (fun i => s₁.obuf.getD i 0) fun i _ => rfl
  have hrest₀ := hrest d₀ hd₀
  obtain ⟨items, hall, hitems, hsum⟩ := hrest₀.items
  have hge := hrest₀.ipos_ge
  have hpos := item.length_codes.1
  have hlt := item.size_pos
  have hlen : s₁.obuf.length = s.obuf.length + item.codes.length := by
    rw [hcodes, List.length_append]
  have hlen' : s'.obuf.length = s₁.obuf.length + (items.flatMap ZlingItem.codes).length := by
    rw [hitems, List.length_append]
  refine ⟨hrest₀.ipos_le, hrest₀.length_le, fun _ _ => by omega, hrest₀.full,
    ⟨item :: items, ?_, ?_, ?_⟩, ?_⟩
  · simpa [hvalid] using hall
  · rw [hitems, hcodes, List.flatMap_cons, List.append_assoc]
  · rw [hsum, hsize, List.map_cons, List.sum_cons, Nat.add_assoc]
  · intro ibuf hreads fuel hfuel
    obtain ⟨fuel, rfl⟩ := Nat.exists_eq_succ_of_ne_zero (by omega : fuel ≠ 0)
    obtain ⟨d₁, hd, hd₁⟩ := hround ibuf (hreads.mono ⟨_, hitems.symm⟩)
    obtain ⟨d', hrun, hd'⟩ := (hrest d₁ hd₁).decodes ibuf hreads fuel (by omega)
    refine ⟨d', ?_, hd'⟩
    have hopos := hd₁.opos_eq
    have hstep : d.step ibuf s'.obuf.length s'.ipos = .inl d₁ := by
      rw [RolzDecode.step, if_pos (by rw [h.ipos_eq]; omega), hd]
      exact if_neg (by omega)
    rw [loopTo_next hstep, hrun]

/-- The rounds of the encoder end, and what it has written is decoded. -/
theorem InStep.run (h : InStep text ilen s d) (hlen : ilen ≤ 2 ^ 24) (hpos : 0 < s.ipos)
    (hle : s.ipos ≤ ilen) (hroom : s.obuf.length ≤ olen) {fuel : ℕ}
    (hfuel : ilen - s.ipos < fuel) :
    ∃ s', loopTo (RolzEncode.step k text ilen olen) fuel s = some s' ∧
      ∀ d, InStep text ilen s d → RolzEncoded text ilen olen s d s' := by
  induction fuel generalizing s d with
  | zero => omega
  | succ fuel ih =>
    by_cases hgo : s.obuf.length + 1 < olen ∧ s.ipos < ilen
    · have hreads : Reads (fun i => (s.round k text ilen).obuf.getD i 0)
          (s.round k text ilen).obuf := fun _ _ => rfl
      obtain ⟨d₀, -, hd₀, hle₁, item, hvalid, hcodes, hsize⟩ := h.round hlen hpos hgo.2 hreads
      have hitemlen := item.length_codes
      have hlt := item.size_pos
      have hroom₁ : (s.round k text ilen).obuf.length ≤ olen := by
        rw [hcodes, List.length_append]
        omega
      obtain ⟨s', hrun, hall⟩ := ih hd₀ (by omega) hle₁ hroom₁ (by omega)
      have hstep : s.step k text ilen olen = .inl (s.round k text ilen) := if_pos hgo
      refine ⟨s', ?_, fun d hd => ?_⟩
      · rw [loopTo_next hstep, hrun]
      · refine .cons hd (fun ibuf hreads => ?_) hvalid hcodes hsize hall
        obtain ⟨d₁, hround, hd₁, -⟩ := hd.round hlen hpos hgo.2 hreads
        exact ⟨d₁, hround, hd₁⟩
    · have hend : s.step k text ilen olen = .inr s := if_neg hgo
      exact ⟨s, loopTo_return hend fuel, fun d hd => .refl hd hle hroom hgo⟩

end Run

/-! ## A call of both functions -/

/-- Between two calls: what the two sides have in common when the first `pos` bytes are done. -/
structure Paired (text : Mem) (ilen pos : ℕ) (e : ZlingRolzEncoder) (d : ZlingRolzDecoder)
    (obuf : Mem) : Prop where
  bytes : Mem.Agree obuf text 0 pos
  mtf_eq : ∀ c, (d.mtf c).table = (e.mtf c).table
  same : Looks ilen pos → SameBuckets e.buckets d.buckets
  valid : Looks ilen pos → 0 < pos → ∀ c, (e.buckets c).Valid pos
  fresh : pos = 0 → (∀ c, e.buckets c = .reset) ∧ ∀ c, d.buckets c = .reset
  past : pos = 1 → pos = ilen

theorem sameBuckets_reset {e : UInt8 → ZlingEncodeBucket} {d : UInt8 → ZlingDecodeBucket}
    (he : ∀ c, e c = .reset) (hd : ∀ c, d c = .reset) : SameBuckets e d := by
  intro c
  rw [he, hd]
  exact ⟨rfl, fun n => by simp [ZlingEncodeBucket.position, ZlingEncodeBucket.reset,
    ZlingDecodeBucket.reset]⟩

/-- The encoder has taken the bytes that are stored as they are. -/
def ZlingRolzEncoder.start (e : ZlingRolzEncoder) (ibuf : Mem) (ilen olen encpos : ℕ) :
    RolzEncode :=
  (RolzEncode.firstByte ibuf ilen olen 0
    { e with ipos := encpos, obuf := [], wordMru := .init }).firstByte ibuf ilen olen 1

/-- The decoder has put them down. -/
def ZlingRolzDecoder.start (d : ZlingRolzDecoder) (ibuf : ℕ → ℕ) (obuf : Mem) (ilen decpos : ℕ) :
    RolzDecode :=
  (RolzDecode.firstByte ibuf ilen 0
    { d with ipos := 0, opos := decpos, obuf := obuf, wordMru := .init }).firstByte ibuf ilen 1

section Call

variable {text : Mem} {ilen olen pos : ℕ} {e : ZlingRolzEncoder} {d : ZlingRolzDecoder}
  {obuf : Mem}

/-- Two bytes of a new buffer are taken, or one where there are no more. -/
theorem ZlingRolzEncoder.start_cases (e : ZlingRolzEncoder) (text : Mem) (hlt : pos < ilen)
    (hpast : pos = 1 → pos = ilen) (holen : 2 ≤ olen) :
    (pos = 0 ∧ 1 < ilen ∧ e.start text ilen olen pos =
      { e with ipos := 2, obuf := [(text 0).toNat, (text 1).toNat], wordMru := .init }) ∨
    (pos = 0 ∧ ilen = 1 ∧ e.start text ilen olen pos =
      { e with ipos := 1, obuf := [(text 0).toNat], wordMru := .init }) ∨
    (2 ≤ pos ∧ e.start text ilen olen pos =
      { e with ipos := pos, obuf := [], wordMru := .init }) := by
  have holen0 : 0 < olen := by omega
  have holen1 : 1 < olen := by omega
  by_cases hzero : pos = 0
  · subst hzero
    by_cases hone : 1 < ilen
    · refine Or.inl ⟨rfl, hone, ?_⟩
      simp [start, RolzEncode.firstByte, hlt, holen0, holen1, hone]
    · refine Or.inr (Or.inl ⟨rfl, by omega, ?_⟩)
      simp [start, RolzEncode.firstByte, hlt, holen0, holen1, hone]
  · have hone : pos ≠ 1 := fun hone => hlt.ne (hpast hone)
    refine Or.inr (Or.inr ⟨by omega, ?_⟩)
    simp [start, RolzEncode.firstByte, hzero, hone]

theorem Paired.start (h : Paired text ilen pos e d obuf) (hlt : pos < ilen) (holen : 2 ≤ olen)
    {ibuf : ℕ → ℕ} {n : ℕ} (hreads : Reads ibuf (e.start text ilen olen pos).obuf)
    (hn : (e.start text ilen olen pos).obuf.length ≤ n)
    (hend : (e.start text ilen olen pos).ipos = ilen →
      n = (e.start text ilen olen pos).obuf.length) :
    InStep text ilen (e.start text ilen olen pos) (d.start ibuf obuf n pos) := by
  have hbyte : ∀ i b, ibuf i = (b : UInt8).toNat → UInt8.ofNat (ibuf i) = b := by
    intro i b hb
    rw [hb, UInt8.ofNat_toNat]
  obtain ⟨rfl, hone, hs⟩ | ⟨rfl, hone, hs⟩ | ⟨htwo, hs⟩ := e.start_cases text hlt h.past holen
  · obtain ⟨he, hd⟩ := h.fresh rfl
    rw [hs] at hreads hn ⊢
    have hn0 : 0 < n := Nat.lt_of_lt_of_le Nat.two_pos hn
    have hn1 : 1 < n := hn
    have hd' : d.start ibuf obuf n 0 = { d with
        ipos := 2
        opos := 2
        obuf := Function.update (Function.update obuf 0 (text 0)) 1 (text 1)
        wordMru := .init } := by
      simp [ZlingRolzDecoder.start, RolzDecode.firstByte, hn0, hn1,
        hbyte 0 _ (hreads 0 (by simp)), hbyte 1 _ (hreads 1 (by simp))]
    rw [hd']
    exact ⟨rfl, rfl, agree_update (agree_update h.bytes rfl) rfl, rfl, h.mtf_eq,
      fun _ => sameBuckets_reset he hd,
      fun _ c => he c ▸ ZlingEncodeBucket.valid_reset Nat.two_pos⟩
  · obtain ⟨he, hd⟩ := h.fresh rfl
    rw [hs] at hreads hend ⊢
    have hn1 : n = 1 := hend hone.symm
    have hd' : d.start ibuf obuf n 0 = { d with
        ipos := 1
        opos := 1
        obuf := Function.update obuf 0 (text 0)
        wordMru := .init } := by
      simp [ZlingRolzDecoder.start, RolzDecode.firstByte, hn1, hbyte 0 _ (hreads 0 (by simp))]
    rw [hd']
    exact ⟨rfl, rfl, agree_update h.bytes rfl, rfl, h.mtf_eq, fun _ => sameBuckets_reset he hd,
      fun _ c => he c ▸ ZlingEncodeBucket.valid_reset Nat.one_pos⟩
  · have hzero : pos ≠ 0 := by omega
    have hone : pos ≠ 1 := by omega
    have hd : d.start ibuf obuf n pos =
        { d with ipos := 0, opos := pos, obuf := obuf, wordMru := .init } := by
      simp [ZlingRolzDecoder.start, RolzDecode.firstByte, hzero, hone]
    rw [hs, hd]
    exact ⟨rfl, rfl, h.bytes, rfl, h.mtf_eq, h.same, fun hl => h.valid hl (by omega)⟩

/-- What the loop of the encoder begins with. -/
structure Started (ilen olen pos : ℕ) (s : RolzEncode) : Prop where
  ipos_pos : 0 < s.ipos
  ipos_ge : pos ≤ s.ipos
  ipos_le : s.ipos ≤ ilen
  room : s.obuf.length + 1 < olen
  forward : pos < s.ipos ∨ s.ipos < ilen
  past : s.ipos = 1 → s.ipos = ilen
  items : ∃ items : List ZlingItem, (∀ item ∈ items, item.Valid) ∧
    s.obuf = items.flatMap ZlingItem.codes ∧ s.ipos = pos + (items.map ZlingItem.size).sum

theorem ZlingRolzEncoder.started (e : ZlingRolzEncoder) (text : Mem) (hlt : pos < ilen)
    (hpast : pos = 1 → pos = ilen) (holen : 3 < olen) :
    Started ilen olen pos (e.start text ilen olen pos) := by
  have hvalid := fun b => (ZlingItem.valid_byte b).1
  have hsize := fun b => (ZlingItem.valid_byte b).2
  obtain ⟨rfl, hone, hs⟩ | ⟨rfl, hone, hs⟩ | ⟨htwo, hs⟩ :=
    e.start_cases text hlt hpast (show 2 ≤ olen by omega)
  · rw [hs]
    exact ⟨Nat.two_pos, Nat.zero_le _, hone, holen, Or.inl Nat.two_pos,
      fun h => absurd h (by simp), [((text 0).toNat, none), ((text 1).toNat, none)],
      by simp [hvalid], rfl, by simp [hsize]⟩
  · rw [hs]
    exact ⟨Nat.one_pos, Nat.zero_le _, hone.ge, by simp only [List.length_singleton]; omega,
      Or.inl Nat.one_pos, fun _ => hone.symm, [((text 0).toNat, none)], by simp [hvalid], rfl,
      by simp [hsize]⟩
  · rw [hs]
    exact ⟨by simp only; omega, le_rfl, hlt.le, by simp only [List.length_nil]; omega, Or.inr hlt,
      fun h => absurd h (by simp only; omega), [], by simp, rfl, by simp⟩

/-- What a call of the encoder leaves, and how a call of the decoder follows it. -/
structure Called (text : Mem) (ilen olen pos : ℕ) (d : ZlingRolzDecoder) (obuf : Mem)
    (s : RolzEncode) : Prop where
  forward : pos < s.ipos
  ipos_le : s.ipos ≤ ilen
  length_le : s.obuf.length ≤ olen
  full : s.ipos < ilen → olen ≤ s.obuf.length + 1
  items : ∃ items : List ZlingItem, (∀ item ∈ items, item.Valid) ∧
    s.obuf = items.flatMap ZlingItem.codes ∧ s.ipos = pos + (items.map ZlingItem.size).sum
  decodes : ∀ ibuf, Reads ibuf s.obuf →
    ∃ d', d.decode ibuf obuf s.obuf.length s.ipos pos = some (some d') ∧ d'.opos = s.ipos ∧
      Paired text ilen s.ipos s.toZlingRolzEncoder d'.toZlingRolzDecoder d'.obuf

/-- The encoder returns, and the decoder makes of its codes the text that they are for. -/
theorem Paired.call (h : Paired text ilen pos e d obuf) (hlen : ilen ≤ 2 ^ 24) (hlt : pos < ilen)
    (holen : 3 < olen) (k : RolzLevel) :
    ∃ s, e.encodeImpl k text ilen olen pos = some s ∧ Called text ilen olen pos d obuf s := by
  have hstarted := e.started text hlt h.past holen
  have hroom := hstarted.room
  have hreads₀ : Reads (fun i => (e.start text ilen olen pos).obuf.getD i 0)
      (e.start text ilen olen pos).obuf := fun _ _ => rfl
  have hstep₀ := h.start hlt (by omega) hreads₀ le_rfl fun _ => rfl
  obtain ⟨s, hrun, hall⟩ := hstep₀.run (k := k) hlen hstarted.ipos_pos hstarted.ipos_le
    (show _ ≤ olen by omega) (show _ < ilen + 1 by omega)
  have hs := hall _ hstep₀
  have hge := hs.ipos_ge
  have hforward : pos < s.ipos := by
    cases hstarted.forward with
    | inl hlt => exact hlt.trans_le hge
    | inr hlt => exact hstarted.ipos_ge.trans_lt (hs.forward hroom hlt)
  refine ⟨s, hrun, hforward, hs.ipos_le, hs.length_le, hs.full, ?_, fun ibuf hreads => ?_⟩
  · obtain ⟨items, hvalid, heq, hsize⟩ := hstarted.items
    obtain ⟨items', hvalid', heq', hsize'⟩ := hs.items
    refine ⟨items ++ items', fun item hitem => ?_, ?_, ?_⟩
    · cases List.mem_append.mp hitem with
      | inl h => exact hvalid item h
      | inr h => exact hvalid' item h
    · rw [heq', heq, List.flatMap_append]
    · rw [hsize', hsize, List.map_append, List.sum_append, Nat.add_assoc]
  · have hprefix : (e.start text ilen olen pos).obuf <+: s.obuf := by
      obtain ⟨items, -, heq, -⟩ := hs.items
      exact ⟨_, heq.symm⟩
    have hend : (e.start text ilen olen pos).ipos = ilen →
        s.obuf.length = (e.start text ilen olen pos).obuf.length := by
      intro hfull
      have hreturn : (e.start text ilen olen pos).step k text ilen olen =
          .inr (e.start text ilen olen pos) := if_neg (by omega)
      rw [loopTo_return hreturn] at hrun
      rw [Option.some.inj hrun]
    have hstep := h.start hlt (by omega) (hreads.mono hprefix) hprefix.length_le hend
    obtain ⟨d', hdecode, hd'⟩ := (hall _ hstep).decodes ibuf hreads (s.obuf.length + 1) (by omega)
    refine ⟨d', hdecode, hd'.opos_eq, hd'.bytes, hd'.mtf_eq, hd'.same, fun hl _ => hd'.valid hl,
      fun hzero => ?_, fun hone => ?_⟩
    · omega
    · cases Nat.lt_or_ge (e.start text ilen olen pos).ipos s.ipos with
      | inl hlt =>
        have hpos := hstarted.ipos_pos
        omega
      | inr hle =>
        have heq : (e.start text ilen olen pos).ipos = s.ipos := by omega
        rw [← heq] at hone ⊢
        exact hstarted.past hone

end Call

end Lzbench
