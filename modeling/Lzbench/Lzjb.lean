import Lzbench.CompDesc
import Lzbench.Lib.Loop
import Lzbench.Lib.Pieces
import Lzbench.Verdict
import Lzbench.World
import Mathlib.Data.Nat.Bitwise

/-!
# LZJB

`lzjb_compress2010` and `lzjb_decompress2010`.  The code is made of groups of eight items
behind a byte with one bit for each of them, which tells a byte of the input from a
reference of two bytes.

Where the encoder looks for a match depends on a table that is indexed by a hash of the
input and holds the low bits of addresses, so that it finds other matches when the
same input lies elsewhere.  That is why `address` is an argument.  A match is compared
byte by byte before it is used, whatever the table said.

## Main definitions

* `lzjbCompress2010`, `lzjbDecompress2010` — the two functions.
* `lzjbLayout` — where an item is found in the code.
* `lzjbCompress2010_spec`, `lzjbDecompress2010_spec` — what they do.
-/

namespace Lzbench

open Imperative

/-! ## The functions -/

/-- `MATCH_BITS`. -/
def lzjbMatchBits : ℕ := 6

/-- `MATCH_MIN`. -/
def lzjbMatchMin : ℕ := 3

/-- `MATCH_MAX`. -/
def lzjbMatchMax : ℕ := 1 <<< lzjbMatchBits + (lzjbMatchMin - 1)

/-- `OFFSET_MASK`. -/
def lzjbOffsetMask : ℕ := 1 <<< (16 - lzjbMatchBits) - 1

/-- `LEMPEL_SIZE`. -/
def lempelSize : ℕ := 1024

/-- The variables of `lzjb_compress2010`; pointers count from `s_start` and `d_start`. -/
structure LzjbEncoder where
  src : ℕ
  dst : ℕ
  copymap : ℕ
  copymask : ℕ
  lempel : ℕ → ℕ
  out : Mem

namespace LzjbEncoder

/-- Before the first round; `copymap` has no value then. -/
def init (out : Mem) : LzjbEncoder := ⟨0, 0, 0, 1 <<< 7, fun _ => 0, out⟩

/-- The index of the table for the three bytes at `src`. -/
def hash (text : Mem) (src : ℕ) : ℕ :=
  let hash := (text src).toNat <<< 16 + (text (src + 1)).toNat <<< 8 + (text (src + 2)).toNat
  let hash := hash + hash >>> 9
  let hash := hash + hash >>> 5
  hash &&& (lempelSize - 1)

/-- `*dst++ = *src++`. -/
def literal (text : Mem) (dStart : ℕ) (s : LzjbEncoder) : LzjbEncoder :=
  { s with
    src := s.src + 1
    dst := s.dst + 1
    out := Function.update s.out (dStart + s.dst) (text s.src) }

/-- The two bytes of a match, and the bit that announces them. -/
def reference (dStart offset mlen : ℕ) (s : LzjbEncoder) : LzjbEncoder :=
  let out := Function.update s.out (dStart + s.copymap)
    (s.out (dStart + s.copymap) ||| UInt8.ofNat s.copymask)
  let out := Function.update out (dStart + s.dst)
    (UInt8.ofNat ((mlen - lzjbMatchMin) <<< (8 - lzjbMatchBits) ||| offset >>> 8))
  let out := Function.update out (dStart + s.dst + 1) (UInt8.ofNat offset)
  { s with src := s.src + mlen, dst := s.dst + 2, out := out }

/-- `copymask = 1; copymap = dst; *dst++ = 0;`. -/
def openGroup (dStart : ℕ) (s : LzjbEncoder) : LzjbEncoder :=
  { s with
    copymask := 1
    copymap := s.dst
    dst := s.dst + 1
    out := Function.update s.out (dStart + s.dst) 0 }

/-- The rest of a round, once there is a group with room. -/
def item (text : Mem) (address dStart sLen : ℕ) (s : LzjbEncoder) : LzjbEncoder :=
  if s.src + lzjbMatchMax > sLen then s.literal text dStart
  else
    let hp := hash text s.src
    let offset := ((((address + s.src : ℕ) : ℤ) - s.lempel hp) % (lzjbOffsetMask + 1 : ℕ)).toNat
    let s := { s with lempel := Function.update s.lempel hp ((address + s.src) % 2 ^ 16) }
    let cpy := s.src - offset
    if offset ≤ s.src ∧ offset ≠ 0 ∧ text s.src = text cpy ∧ text (s.src + 1) = text (cpy + 1) ∧
        text (s.src + 2) = text (cpy + 2) then
      s.reference dStart offset
        (commonFrom text s.src cpy (lzjbMatchMax - lzjbMatchMin) lzjbMatchMin)
    else s.literal text dStart

/-- A round of the loop, or the `return` of the function. -/
def step (text : Mem) (address dStart sLen dLen : ℕ) (s : LzjbEncoder) :
    LzjbEncoder ⊕ (ℕ × Mem) :=
  if s.src < sLen then
    let s := { s with copymask := s.copymask <<< 1 }
    if s.copymask = 1 <<< 8 then
      if dLen ≤ s.dst + 1 + 2 * 8 then .inr (sLen, s.out)
      else .inl ((s.openGroup dStart).item text address dStart sLen)
    else .inl (s.item text address dStart sLen)
  else .inr (s.dst, s.out)

end LzjbEncoder

/-- `lzjb_compress2010` on a text at `address`, for an output at `dStart`.  Every round takes a
byte, so the fuel is enough. -/
def lzjbCompress2010 (text : Mem) (address : ℕ) (out : Mem) (dStart sLen dLen : ℕ) :
    Option (ℕ × Mem) :=
  loopTo (LzjbEncoder.step text address dStart sLen dLen) (sLen + 1) (.init out)

/-- The variables of `lzjb_decompress2010`. -/
structure LzjbDecoder where
  src : ℕ
  dst : ℕ
  copymap : UInt8
  copymask : ℕ
  out : Mem

namespace LzjbDecoder

/-- Before the first round; `copymap` has no value then. -/
def init (out : Mem) : LzjbDecoder := ⟨0, 0, 0, 1 <<< 7, out⟩

/-- The rest of a round, once the bits of a group are there. -/
def item (code : Mem) (sLen dStart dLen : ℕ) (s : LzjbDecoder) :
    LzjbDecoder ⊕ Except Stop (ℤ × Mem) :=
  if s.copymap.toNat &&& s.copymask ≠ 0 then
    if sLen < s.src + 2 then .inr (.error .undefined)
    else
      let mlen := (code s.src).toNat >>> (8 - lzjbMatchBits) + lzjbMatchMin
      let offset := ((code s.src).toNat <<< 8 ||| (code (s.src + 1)).toNat) &&& lzjbOffsetMask
      if s.dst < offset then .inr (.ok (-1, s.out))
      else
        let mlen := min mlen (dLen - s.dst)
        .inl { s with
          src := s.src + 2
          dst := s.dst + mlen
          out := copyBytes s.out (dStart + s.dst) (dStart + s.dst - offset) mlen }
  else if sLen < s.src + 1 then .inr (.error .undefined)
  else
    .inl { s with
      src := s.src + 1
      dst := s.dst + 1
      out := Function.update s.out (dStart + s.dst) (code s.src) }

/-- A round of the loop, or the `return` of the function. -/
def step (code : Mem) (sLen dStart dLen : ℕ) (s : LzjbDecoder) :
    LzjbDecoder ⊕ Except Stop (ℤ × Mem) :=
  if s.dst < dLen then
    let s := { s with copymask := s.copymask <<< 1 }
    if s.copymask = 1 <<< 8 then
      if sLen < s.src + 1 then .inr (.error .undefined)
      else
        { s with copymask := 1, copymap := code s.src, src := s.src + 1 }.item code sLen dStart dLen
    else s.item code sLen dStart dLen
  else .inr (.ok (s.dst, s.out))

end LzjbDecoder

/-- `lzjb_decompress2010` on the `sLen` bytes of `code`.  The function does not look at
`s_len`: what it reads behind the code is undefined.  Every round puts down a byte. -/
def lzjbDecompress2010 (code : Mem) (sLen : ℕ) (out : Mem) (dStart dLen : ℕ) :
    Option (Except Stop (ℤ × Mem)) :=
  loopTo (LzjbDecoder.step code sLen dStart dLen) (dLen + 1) (.init out)

/-! ## The code -/

/-- Where an item goes: to `src`, with its bit in the byte at `map`, of which the first `bit`
are taken. -/
structure LzjbPlace where
  src : ℕ
  map : ℕ
  bit : ℕ

namespace LzjbPlace

/-- A byte without free bits is left for a new one. -/
def opened (s : LzjbPlace) : LzjbPlace := if s.bit = 8 then ⟨s.src + 1, s.src, 0⟩ else s

def Valid (s : LzjbPlace) : Prop := 0 < s.bit ∧ s.bit ≤ 8 ∧ (s.bit < 8 → s.map < s.src)

/-- The item is at the place: its bit, and one byte or two. -/
def Found (code : Mem) (s : LzjbPlace) : Piece → Prop
  | .literal b =>
    (code s.opened.map).toNat.testBit s.opened.bit = false ∧ code s.opened.src = b
  | .copy dist length =>
    (code s.opened.map).toNat.testBit s.opened.bit = true ∧
    (lzjbMatchMin ≤ length ∧ length ≤ lzjbMatchMax ∧ dist ≤ lzjbOffsetMask) ∧
    code s.opened.src =
      UInt8.ofNat ((length - lzjbMatchMin) <<< (8 - lzjbMatchBits) ||| dist >>> 8) ∧
    code (s.opened.src + 1) = UInt8.ofNat dist

/-- The bytes an item takes besides its bit. -/
def width : Piece → ℕ
  | .literal _ => 1
  | .copy _ _ => 2

def next (s : LzjbPlace) (x : Piece) : LzjbPlace :=
  ⟨s.opened.src + width x, s.opened.map, s.opened.bit + 1⟩

/-- What stands before the place is the same, of the byte at `map` only the bits taken. -/
def Same (s : LzjbPlace) (m m' : Mem) : Prop :=
  (∀ p < s.src, p ≠ s.map → m' p = m p) ∧
    (s.map < s.src → ∀ i < s.bit, (m' s.map).toNat.testBit i = (m s.map).toNat.testBit i)

theorem opened_valid {s : LzjbPlace} (h : s.Valid) :
    s.opened.bit < 8 ∧ s.opened.map < s.opened.src ∧ s.src ≤ s.opened.src := by
  simp only [opened]
  split
  · simp
  · have hbit : s.bit < 8 := by
      have hle := h.2.1
      omega
    exact ⟨hbit, h.2.2 hbit, le_refl _⟩

theorem size_pos {code : Mem} {s : LzjbPlace} {x : Piece} (h : Found code s x) : 0 < x.size := by
  cases x with
  | literal b => exact Nat.one_pos
  | copy dist length => exact Nat.lt_of_lt_of_le (by decide) h.2.1.1

/-- Sameness before the next place is sameness before an opened one, its own bit included. -/
theorem Same.opened {s : LzjbPlace} {x : Piece} {m m' : Mem} (hs : s.Valid)
    (h : (s.next x).Same m m') :
    (∀ p < s.opened.src + width x, p ≠ s.opened.map → m' p = m p) ∧
      (m' s.opened.map).toNat.testBit s.opened.bit =
        (m s.opened.map).toNat.testBit s.opened.bit := by
  have hopen := opened_valid hs
  refine ⟨h.1, h.2 ?_ _ (Nat.lt_succ_self _)⟩
  simp only [next]
  omega

theorem same_of_next {s : LzjbPlace} {x : Piece} {m m' : Mem}
    (h : (s.next x).Same m m') : s.Same m m' := by
  by_cases hfull : s.bit = 8
  · have hopen : s.opened = ⟨s.src + 1, s.src, 0⟩ := if_pos hfull
    have hsame : ∀ p < s.src, m' p = m p := by
      intro p hp
      apply h.1
      · simp only [next, hopen]
        omega
      · simp only [next, hopen]
        omega
    refine ⟨fun p hp _ => hsame p hp, fun hmap i _ => ?_⟩
    rw [hsame s.map hmap]
  · have hopen : s.opened = s := if_neg hfull
    simp only [Same, next, hopen] at h
    refine ⟨fun p hp hne => h.1 p (by omega) hne, fun hmap i hi => h.2 (by omega) i (by omega)⟩

theorem found_congr {s : LzjbPlace} {x : Piece} {m m' : Mem} (hs : s.Valid)
    (h : (s.next x).Same m m') (hx : Found m s x) : Found m' s x := by
  obtain ⟨hbytes, hbit⟩ := h.opened hs
  have hopen := opened_valid hs
  cases x with
  | literal b =>
    refine ⟨hbit.trans hx.1, ?_⟩
    rw [hbytes _ (by simp [width]) (by omega)]
    exact hx.2
  | copy dist length =>
    refine ⟨hbit.trans hx.1, hx.2.1, ?_, ?_⟩
    · rw [hbytes _ (by simp [width]) (by omega)]
      exact hx.2.2.1
    · rw [hbytes _ (by simp [width]) (by omega)]
      exact hx.2.2.2

end LzjbPlace

/-- The layout of the code. -/
def lzjbLayout : Layout LzjbPlace Piece where
  Valid := LzjbPlace.Valid
  Found := LzjbPlace.Found
  next := LzjbPlace.next
  Same := LzjbPlace.Same
  valid_next s x hs := by
    have hopen := LzjbPlace.opened_valid hs
    refine ⟨Nat.succ_pos _, ?_, fun _ => ?_⟩
    · simp only [LzjbPlace.next]
      omega
    · simp only [LzjbPlace.next]
      omega
  same_of_next _ _ _ _ _ h := LzjbPlace.same_of_next h
  found_congr _ _ _ _ hs h hx := LzjbPlace.found_congr hs h hx

theorem LzjbPlace.src_le_next {s : LzjbPlace} (h : s.Valid) (x : Piece) :
    s.src ≤ (s.next x).src := by
  have hopen := LzjbPlace.opened_valid h
  simp only [LzjbPlace.next]
  omega

theorem lzjb_src_le_after {s : LzjbPlace} (h : s.Valid) (xs : List Piece) :
    s.src ≤ (lzjbLayout.after s xs).src := by
  induction xs generalizing s with
  | nil => exact le_refl _
  | cons x xs ih =>
    exact (LzjbPlace.src_le_next h x).trans (ih (lzjbLayout.valid_next s x h))

/-- Before the first item. -/
def lzjbStart : LzjbPlace := ⟨0, 0, 8⟩

/-- The place behind the items. -/
def lzjbAfter (xs : List Piece) : LzjbPlace := lzjbLayout.after lzjbStart xs

theorem lzjbStart_valid : lzjbStart.Valid :=
  ⟨by decide, le_refl _, fun hbit => absurd hbit (by decide)⟩

theorem lzjbAfter_snoc (xs : List Piece) (x : Piece) :
    lzjbAfter (xs ++ [x]) = (lzjbAfter xs).next x :=
  lzjbLayout.after_append lzjbStart xs [x]

theorem lzjbAfter_valid (xs : List Piece) : (lzjbAfter xs).Valid :=
  lzjbLayout.valid_after lzjbStart_valid xs

/-- Eight bytes of the text take nine of the code, or fewer. -/
theorem lzjb_src_le {code : Mem} {xs : List Piece} {s : LzjbPlace} {p : ℕ}
    (hxs : lzjbLayout.Holds code s xs) (h : 8 * s.src + s.bit ≤ 9 * p + 8) :
    8 * (lzjbLayout.after s xs).src + (lzjbLayout.after s xs).bit ≤
      9 * (p + piecesSize xs) + 8 := by
  induction xs generalizing s p with
  | nil => exact h
  | cons x xs ih =>
    have hopen : 8 * s.opened.src + s.opened.bit ≤ 9 * p + 8 := by
      simp only [LzjbPlace.opened]
      split
      · simp only
        omega
      · exact h
    have hitem : 8 * LzjbPlace.width x + 1 ≤ 9 * x.size := by
      cases x with
      | literal b => exact le_refl _
      | copy dist length =>
        have hlow : lzjbMatchMin ≤ length := hxs.1.2.1.1
        have hthree : lzjbMatchMin = 3 := rfl
        simp only [LzjbPlace.width, Piece.size_copy]
        omega
    have hnext : 8 * (s.next x).src + (s.next x).bit ≤ 9 * (p + x.size) + 8 := by
      simp only [LzjbPlace.next]
      omega
    rw [piecesSize_cons, ← Nat.add_assoc]
    exact ih hxs.2 hnext

/-! ## Decompression -/

/-- The two bytes of a reference are read as they were written. -/
theorem lzjb_reference {dist length : ℕ} (hlow : lzjbMatchMin ≤ length)
    (hhigh : length ≤ lzjbMatchMax) (hdist : dist ≤ lzjbOffsetMask) {b b' : UInt8}
    (hb : b = UInt8.ofNat ((length - lzjbMatchMin) <<< (8 - lzjbMatchBits) ||| dist >>> 8))
    (hb' : b' = UInt8.ofNat dist) :
    b.toNat >>> (8 - lzjbMatchBits) + lzjbMatchMin = length ∧
      (b.toNat <<< 8 ||| b'.toNat) &&& lzjbOffsetMask = dist := by
  have hmax : lzjbMatchMax = 66 := rfl
  have hmask : lzjbOffsetMask = 2 ^ 10 - 1 := rfl
  have hmin : lzjbMatchMin = 3 := rfl
  have hshift : 8 - lzjbMatchBits = 2 := rfl
  rw [hmin] at hlow
  rw [hmax] at hhigh
  rw [hmask] at hdist
  have hhi : dist >>> 8 < 2 ^ 2 := by
    rw [Nat.shiftRight_eq_div_pow]
    omega
  rw [hshift, hmin, ← Nat.shiftLeft_add_eq_or_of_lt hhi, Nat.shiftLeft_eq,
    Nat.shiftRight_eq_div_pow] at hb
  have hbyte : b.toNat = (length - 3) * 2 ^ 2 + dist / 2 ^ 8 := by
    rw [hb, UInt8.toNat_ofNat_of_lt']
    simp only [UInt8.size]
    omega
  have hbyte' : b'.toNat = dist % 2 ^ 8 := by rw [hb', UInt8.toNat_ofNat']
  have hlo : b'.toNat < 2 ^ 8 := by
    rw [hbyte']
    omega
  rw [hshift, hmin, hmask, ← Nat.shiftLeft_add_eq_or_of_lt hlo, Nat.and_two_pow_sub_one_eq_mod,
    Nat.shiftLeft_eq, Nat.shiftRight_eq_div_pow, hbyte, hbyte']
  omega

namespace LzjbDecoder

variable {code text out0 : Mem} {sLen dStart dLen p : ℕ} {place : LzjbPlace} {s : LzjbDecoder}

/-- The decoder stands at a place of the code, and has put down `p` bytes of the text. -/
structure Stands (code text out0 : Mem) (dStart dLen : ℕ) (place : LzjbPlace) (p : ℕ)
    (s : LzjbDecoder) : Prop where
  src_eq : s.src = place.src
  dst_eq : s.dst = p
  copymap_eq : place.bit < 8 → s.copymap = code place.map
  copymask_eq : s.copymask = 2 ^ (place.bit - 1)
  bytes_eq : Mem.SameBytes s.out dStart text 0 p
  within : Mem.WritesWithin out0 s.out dStart dLen

/-- A round begins with a group that has a bit left. -/
theorem Stands.step_eq (h : Stands code text out0 dStart dLen place p s) (hvalid : place.Valid)
    (hcode : place.opened.src ≤ sLen) (hp : p < dLen) :
    s.step code sLen dStart dLen =
      LzjbDecoder.item code sLen dStart dLen { s with
        src := place.opened.src
        copymap := code place.opened.map
        copymask := 2 ^ place.opened.bit } := by
  have hdst : s.dst < dLen := h.dst_eq ▸ hp
  obtain ⟨hpos, hle, -⟩ := hvalid
  have hmask : s.copymask <<< 1 = 2 ^ place.bit := by
    rw [h.copymask_eq, Nat.shiftLeft_eq, ← Nat.pow_add_one, Nat.sub_add_cancel hpos]
  simp only [step, if_pos hdst, hmask, Nat.one_shiftLeft, h.src_eq]
  by_cases hfull : place.bit = 8
  · have hopen : place.opened = ⟨place.src + 1, place.src, 0⟩ := if_pos hfull
    rw [hopen] at hcode
    have hread : ¬ sLen < place.src + 1 := Nat.not_lt_of_le hcode
    simp [hfull, hopen, hread]
  · have hopen : place.opened = place := if_neg hfull
    have hne : ¬ 2 ^ place.bit = 2 ^ 8 := fun heq => hfull (Nat.pow_right_injective le_rfl heq)
    simp only [if_neg hne, hopen, ← h.copymap_eq (by omega), ← h.src_eq]

/-- A round puts down the item at the place. -/
theorem Stands.step (h : Stands code text out0 dStart dLen place p s) (hvalid : place.Valid)
    {x : Piece} (hx : LzjbPlace.Found code place x) (hfits : x.Fits text p)
    (hcode : (place.next x).src ≤ sLen) (hsize : p + x.size ≤ dLen) :
    ∃ s', s.step code sLen dStart dLen = .inl s' ∧
      Stands code text out0 dStart dLen (place.next x) (p + x.size) s' := by
  have hput := hfits.put h.bytes_eq
  have hwithin := h.within.trans
    ((x.writesWithin_put s.out (dStart + p)).mono (Nat.le_add_right _ _) (by omega))
  have hread : ¬ sLen < place.opened.src + LzjbPlace.width x := Nat.not_lt_of_le hcode
  have hopened : place.opened.src ≤ sLen := (Nat.le_add_right _ _).trans hcode
  cases x with
  | literal b =>
    obtain ⟨hbit, hbyte⟩ := hx
    have hzero : (code place.opened.map).toNat &&& 2 ^ place.opened.bit = 0 := by
      rw [Nat.and_two_pow, hbit]
      simp
    rw [h.step_eq hvalid hopened (Nat.lt_of_succ_le hsize)]
    simp only [LzjbPlace.width] at hread
    simp only [item, hzero, ne_eq, not_true_eq_false, if_false, if_neg hread, h.dst_eq, hbyte]
    exact ⟨_, rfl, ⟨rfl, rfl, fun _ => rfl, by simp [LzjbPlace.next], hput, hwithin⟩⟩
  | copy dist length =>
    obtain ⟨hbit, ⟨hlow, hhigh, hdist⟩, hfirst, hsecond⟩ := hx
    have hone : (code place.opened.map).toNat &&& 2 ^ place.opened.bit ≠ 0 := by
      rw [Nat.and_two_pow, hbit]
      simp
    obtain ⟨hlength, hoffset⟩ := lzjb_reference hlow hhigh hdist hfirst hsecond
    have hmin : min length (dLen - p) = length := Nat.min_eq_left (by simp at hsize; omega)
    have hback : ¬ p < dist := Nat.not_lt_of_le hfits.2.1
    have hlt : p < dLen := by
      have hthree : lzjbMatchMin = 3 := rfl
      simp only [Piece.size_copy] at hsize
      omega
    rw [h.step_eq hvalid hopened hlt]
    simp only [LzjbPlace.width] at hread
    simp only [item, if_pos hone, if_neg hread, hlength, hoffset, h.dst_eq, if_neg hback, hmin]
    exact ⟨_, rfl, ⟨rfl, rfl, fun _ => rfl, by simp [LzjbPlace.next], hput, hwithin⟩⟩

/-- The rounds over all items of the code. -/
theorem Stands.run {xs : List Piece} (h : Stands code text out0 dStart dLen place p s)
    (hvalid : place.Valid) (hxs : lzjbLayout.Holds code place xs) (hfits : Describes text p xs)
    (hcode : (lzjbLayout.after place xs).src ≤ sLen) (hsize : p + piecesSize xs = dLen)
    {fuel : ℕ} (hfuel : dLen - p < fuel) :
    ∃ out, loopTo (LzjbDecoder.step code sLen dStart dLen) fuel s = some (.ok (dLen, out)) ∧
      Mem.SameBytes out dStart text 0 dLen ∧ Mem.WritesWithin out0 out dStart dLen := by
  induction xs generalizing place p s fuel with
  | nil =>
    obtain rfl : p = dLen := by simpa using hsize
    obtain ⟨fuel, rfl⟩ := Nat.exists_eq_succ_of_ne_zero (by omega : fuel ≠ 0)
    have hend : s.step code sLen dStart p = .inr (.ok (p, s.out)) := by
      simp [LzjbDecoder.step, h.dst_eq]
    exact ⟨s.out, loopTo_return hend fuel, h.bytes_eq, h.within⟩
  | cons x xs ih =>
    rw [piecesSize_cons] at hsize
    have hnext := lzjbLayout.valid_next place x hvalid
    obtain ⟨s', hstep, hs'⟩ := h.step hvalid hxs.1 hfits.1
      ((lzjb_src_le_after hnext xs).trans hcode) (by omega)
    obtain ⟨fuel, rfl⟩ := Nat.exists_eq_succ_of_ne_zero (by omega : fuel ≠ 0)
    have hpos := LzjbPlace.size_pos hxs.1
    rw [loopTo_next hstep]
    exact ih hs' hnext hxs.2 hfits.2 hcode (by omega) (by omega)

end LzjbDecoder

/-- A code that holds the text is decompressed to it. -/
theorem lzjbDecompress2010_spec {code text : Mem} {xs : List Piece} {sLen dLen : ℕ}
    (hxs : lzjbLayout.Holds code lzjbStart xs) (hfits : Describes text 0 xs)
    (hcode : (lzjbAfter xs).src ≤ sLen) (hsize : piecesSize xs = dLen) (out0 : Mem)
    (dStart : ℕ) :
    ∃ out, lzjbDecompress2010 code sLen out0 dStart dLen = some (.ok (dLen, out)) ∧
      Mem.SameBytes out dStart text 0 dLen ∧ Mem.WritesWithin out0 out dStart dLen := by
  have hstart : LzjbDecoder.Stands code text out0 dStart dLen lzjbStart 0 (.init out0) :=
    ⟨rfl, rfl, fun hbit => absurd hbit (by decide), rfl, fun i hi => absurd hi (by omega),
      Mem.writesWithin_refl _ _ _⟩
  exact hstart.run lzjbStart_valid hxs hfits hcode (by omega) (by omega)

namespace LzjbDecoder

/-- The decoder has not left the output.  While there is room it has read at most nine bytes for
eight of the output, and those of the group it is in. -/
structure Inside (out0 : Mem) (dStart dLen : ℕ) (s : LzjbDecoder) : Prop where
  dst_le : s.dst ≤ dLen
  src_le : s.dst < dLen →
    ∃ bit ≤ 8, s.copymask <<< 1 = 1 <<< bit ∧ 8 * s.src + bit ≤ 9 * s.dst + 8
  within : Mem.WritesWithin out0 s.out dStart dLen

/-- Where the function stops, and with what. -/
def Returns (out0 : Mem) (sLen dStart dLen : ℕ) : Except Stop (ℤ × Mem) → Prop :=
  Ends (fun r => (r.1 = dLen ∨ r.1 = -1) ∧ Mem.WritesWithin out0 r.2 dStart dLen)
    (fun e => e = .undefined ∧ sLen < dLen + dLen / 8 + 2)

/-- A round goes forward in the output, or it is the last. -/
def Forward (out0 : Mem) (sLen dStart dLen dst : ℕ) :
    LzjbDecoder ⊕ Except Stop (ℤ × Mem) → Prop
  | .inl s => Inside out0 dStart dLen s ∧ dst < s.dst
  | .inr r => Returns out0 sLen dStart dLen r

variable {code out0 : Mem} {sLen dStart dLen : ℕ} {s : LzjbDecoder}

theorem item_forward (bit : ℕ) (hlt : s.dst < dLen) (hbit : bit < 8)
    (hmask : s.copymask = 1 <<< bit) (hsrc : 8 * s.src + bit ≤ 9 * s.dst + 8)
    (hwithin : Mem.WritesWithin out0 s.out dStart dLen) :
    Forward out0 sLen dStart dLen s.dst (s.item code sLen dStart dLen) := by
  have hnext : s.copymask <<< 1 = 1 <<< (bit + 1) := by
    rw [hmask, Nat.shiftLeft_add]
  simp only [LzjbDecoder.item]
  by_cases hset : s.copymap.toNat &&& s.copymask ≠ 0
  · rw [if_pos hset]
    split
    · exact (ends_error _ _ _).mpr ⟨rfl, by omega⟩
    · split
      · exact (ends_ok _ _ _).mpr ⟨Or.inr rfl, hwithin⟩
      · -- a length is never below three, and is cut off at the end of the output
        have hlow : 3 ≤ (code s.src).toNat >>> (8 - lzjbMatchBits) + lzjbMatchMin :=
          Nat.le_add_left _ _
        generalize (code s.src).toNat >>> (8 - lzjbMatchBits) + lzjbMatchMin = mlen at hlow ⊢
        have hle : s.dst + min mlen (dLen - s.dst) ≤ dLen := by omega
        have hcopy := writesWithin_copyBytes s.out (dStart + s.dst) (dStart + s.dst -
          (((code s.src).toNat <<< 8 ||| (code (s.src + 1)).toNat) &&& lzjbOffsetMask))
          (min mlen (dLen - s.dst))
        refine ⟨⟨hle, fun hroom => ⟨bit + 1, by omega, hnext, ?_⟩,
          hwithin.trans (hcopy.mono (Nat.le_add_right _ _) (by omega))⟩, ?_⟩
        · simp only at hroom ⊢
          omega
        · exact Nat.lt_add_of_pos_right (by omega)
  · rw [if_neg hset]
    split
    · exact (ends_error _ _ _).mpr ⟨rfl, by omega⟩
    · have hone := writesWithin_update s.out (dStart + s.dst) (code s.src)
      refine ⟨⟨hlt, fun _ => ⟨bit + 1, by omega, hnext, ?_⟩,
        hwithin.trans (hone.mono (Nat.le_add_right _ _) (by omega))⟩, Nat.lt_succ_self _⟩
      simp only
      omega

theorem Inside.step (code : Mem) (sLen : ℕ) (h : Inside out0 dStart dLen s) :
    Forward out0 sLen dStart dLen s.dst (s.step code sLen dStart dLen) := by
  simp only [LzjbDecoder.step]
  split
  · rename_i hlt
    obtain ⟨bit, hbit, hmask, hsrc⟩ := h.src_le hlt
    split
    · rename_i hfull
      have hlast : bit = 8 := by
        rw [hmask, Nat.one_shiftLeft, Nat.one_shiftLeft] at hfull
        exact Nat.pow_right_injective le_rfl hfull
      split
      · exact (ends_error _ _ _).mpr ⟨rfl, by omega⟩
      · refine item_forward (s := { s with
          copymask := 1, copymap := code s.src, src := s.src + 1 }) 0 hlt (by decide) rfl ?_
          h.within
        simp only
        omega
    · rename_i hfull
      have hlow : bit < 8 := by
        refine lt_of_le_of_ne hbit fun heq => hfull ?_
        rw [hmask, heq]
      exact item_forward (s := { s with copymask := s.copymask <<< 1 }) bit hlt hlow hmask hsrc
        h.within
  · have hend : s.dst = dLen := by
      have hle := h.dst_le
      omega
    exact (ends_ok _ _ _).mpr ⟨Or.inl (congrArg _ hend), h.within⟩

end LzjbDecoder

/-- On any code the function returns, filled or at a reference to before the start of the
output, or it reads behind the code; the last only where the code is shorter than nine eighths
of the output and two bytes. -/
theorem lzjbDecompress2010_total (code out0 : Mem) (sLen dStart dLen : ℕ) :
    ∃ r, lzjbDecompress2010 code sLen out0 dStart dLen = some r ∧
      Ends (fun r : ℤ × Mem => (r.1 = dLen ∨ r.1 = -1) ∧ Mem.WritesWithin out0 r.2 dStart dLen)
        (fun e => e = .undefined ∧ sLen < dLen + dLen / 8 + 2) r := by
  have hnext : ∀ s s', LzjbDecoder.Inside out0 dStart dLen s →
      s.step code sLen dStart dLen = .inl s' →
      LzjbDecoder.Inside out0 dStart dLen s' ∧ dLen - s'.dst < dLen - s.dst := by
    intro s s' hs hstep
    have hround := hs.step code sLen
    rw [hstep] at hround
    have hle := hround.1.dst_le
    have hlt := hround.2
    exact ⟨hround.1, by omega⟩
  have hlast : ∀ s r, LzjbDecoder.Inside out0 dStart dLen s →
      s.step code sLen dStart dLen = .inr r → LzjbDecoder.Returns out0 sLen dStart dLen r := by
    intro s r hs hstep
    have hround := hs.step code sLen
    rwa [hstep] at hround
  have hinit : LzjbDecoder.Inside out0 dStart dLen (.init out0) :=
    ⟨Nat.zero_le _, fun _ => ⟨8, le_refl _, rfl, le_refl _⟩, Mem.writesWithin_refl _ _ _⟩
  obtain ⟨r, hr, hrun⟩ := total_loopTo (fun s : LzjbDecoder => dLen - s.dst) hnext hlast hinit
  exact ⟨r, hrun (dLen + 1) (Nat.lt_succ_of_le (Nat.sub_le _ _)), hr⟩

/-! ## Compression -/

namespace LzjbEncoder

variable {text out0 : Mem} {address dStart sLen dLen : ℕ} {xs : List Piece} {s : LzjbEncoder}

/-- The items written so far, with a group that has a bit left: the bit is not set, and there
is room for the rest of the group. -/
structure Ready (text out0 : Mem) (dStart sLen dLen : ℕ) (xs : List Piece) (s : LzjbEncoder) :
    Prop where
  holds : lzjbLayout.Holds (s.out.window dStart) lzjbStart xs
  describes : Describes text 0 xs
  src_eq : s.src = piecesSize xs
  src_le : s.src < sLen
  dst_eq : s.dst = (lzjbAfter xs).opened.src
  copymap_eq : s.copymap = (lzjbAfter xs).opened.map
  copymask_eq : s.copymask = 2 ^ (lzjbAfter xs).opened.bit
  zero : ∀ i, (lzjbAfter xs).opened.bit ≤ i → i < 8 →
    (s.out (dStart + s.copymap)).toNat.testBit i = false
  room : s.dst + 2 * (8 - (lzjbAfter xs).opened.bit) ≤ dLen
  within : Mem.WritesWithin out0 s.out dStart dLen

/-- The items written so far. -/
structure Encodes (text out0 : Mem) (dStart sLen dLen : ℕ) (xs : List Piece) (s : LzjbEncoder) :
    Prop where
  holds : lzjbLayout.Holds (s.out.window dStart) lzjbStart xs
  describes : Describes text 0 xs
  src_eq : s.src = piecesSize xs
  src_le : s.src ≤ sLen
  dst_eq : s.dst = (lzjbAfter xs).src
  copymap_eq : (lzjbAfter xs).bit < 8 → s.copymap = (lzjbAfter xs).map
  copymask_eq : s.copymask = 2 ^ ((lzjbAfter xs).bit - 1)
  zero : ∀ i, (lzjbAfter xs).bit ≤ i → i < 8 →
    (s.out (dStart + s.copymap)).toNat.testBit i = false
  room : s.dst + 2 * (8 - (lzjbAfter xs).bit) ≤ dLen
  within : Mem.WritesWithin out0 s.out dStart dLen

/-- One more item, of which the bytes and the bit were written. -/
theorem Ready.snoc (h : Ready text out0 dStart sLen dLen xs s) {s' : LzjbEncoder} {x : Piece}
    (hfits : x.Fits text s.src) (hsrc : s'.src = s.src + x.size) (hle : s'.src ≤ sLen)
    (hdst : s'.dst = s.dst + LzjbPlace.width x) (hmap : s'.copymap = s.copymap)
    (hmask : s'.copymask = s.copymask)
    (hbefore : ∀ p < s.dst, p ≠ s.copymap → s'.out (dStart + p) = s.out (dStart + p))
    (hbits : ∀ i < 8, i ≠ (lzjbAfter xs).opened.bit →
      (s'.out (dStart + s.copymap)).toNat.testBit i = (s.out (dStart + s.copymap)).toNat.testBit i)
    (hfound : LzjbPlace.Found (s'.out.window dStart) (lzjbAfter xs) x)
    (hwithin : Mem.WritesWithin s.out s'.out (dStart + s.copymap)
      (s.dst + LzjbPlace.width x - s.copymap)) :
    Encodes text out0 dStart sLen dLen (xs ++ [x]) s' := by
  have hvalid := lzjbAfter_valid xs
  obtain ⟨hlt, hbehind, hsrcle⟩ := LzjbPlace.opened_valid hvalid
  have hroom := h.room
  have hwidth : LzjbPlace.width x ≤ 2 := by cases x <;> simp [LzjbPlace.width]
  have hsame : (lzjbAfter xs).Same (s.out.window dStart) (s'.out.window dStart) := by
    by_cases hfull : (lzjbAfter xs).bit = 8
    · have hopen : (lzjbAfter xs).opened = ⟨(lzjbAfter xs).src + 1, (lzjbAfter xs).src, 0⟩ :=
        if_pos hfull
      have hall : ∀ p < (lzjbAfter xs).src, s'.out (dStart + p) = s.out (dStart + p) := by
        intro p hp
        refine hbefore p ?_ ?_
        · rw [h.dst_eq, hopen]
          exact Nat.lt_succ_of_lt hp
        · rw [h.copymap_eq, hopen]
          exact hp.ne
      refine ⟨fun p hp _ => hall p hp, fun hp i _ => ?_⟩
      simp only [Mem.window, hall _ hp]
    · have hopen : (lzjbAfter xs).opened = lzjbAfter xs := if_neg hfull
      refine ⟨fun p hp hne => hbefore p ?_ ?_, fun _ i hi => ?_⟩
      · rw [h.dst_eq, hopen]
        exact hp
      · rw [h.copymap_eq, hopen]
        exact hne
      · have hbit := hbits i (by rw [hopen] at hlt; omega) (by rw [hopen]; exact hi.ne)
        rw [h.copymap_eq, hopen] at hbit
        exact hbit
  constructor
  · exact h.holds.snoc lzjbLayout lzjbStart_valid hsame
      hfound
  · refine describes_append.mpr ⟨h.describes, ?_⟩
    rw [Nat.zero_add, ← h.src_eq]
    exact ⟨hfits, trivial⟩
  · rw [hsrc, piecesSize_append, h.src_eq, piecesSize_cons, piecesSize_nil, Nat.add_zero]
  · exact hle
  · rw [hdst, h.dst_eq, lzjbAfter_snoc]
    rfl
  · intro _
    rw [hmap, h.copymap_eq, lzjbAfter_snoc]
    rfl
  · rw [hmask, h.copymask_eq, lzjbAfter_snoc]
    rfl
  · intro i hi hlt8
    rw [lzjbAfter_snoc] at hi
    simp only [LzjbPlace.next] at hi
    rw [hmap, hbits i hlt8 (by omega)]
    exact h.zero i (by omega) hlt8
  · rw [hdst, lzjbAfter_snoc]
    simp only [LzjbPlace.next]
    omega
  · refine h.within.trans (hwithin.mono (Nat.le_add_right _ _) ?_)
    rw [h.copymap_eq, h.dst_eq]
    rw [h.dst_eq] at hroom
    omega

/-- A byte is written as it is. -/
theorem Ready.literal (h : Ready text out0 dStart sLen dLen xs s) :
    Encodes text out0 dStart sLen dLen (xs ++ [.literal (text s.src)]) (s.literal text dStart) := by
  obtain ⟨hlt, hbehind, -⟩ := LzjbPlace.opened_valid (lzjbAfter_valid xs)
  rw [← h.dst_eq, ← h.copymap_eq] at hbehind
  have hmap : (s.literal text dStart).out (dStart + s.copymap) = s.out (dStart + s.copymap) :=
    Function.update_of_ne (by omega) _ _
  refine h.snoc rfl rfl h.src_le rfl rfl rfl ?_ ?_ ⟨?_, ?_⟩ ?_
  · intro p hp _
    exact Function.update_of_ne (by omega) _ _
  · intro i _ _
    rw [hmap]
  · rw [← h.copymap_eq, Mem.window, hmap]
    exact h.zero _ le_rfl hlt
  · rw [← h.dst_eq]
    exact Function.update_self _ _ _
  · exact (writesWithin_update _ _ _).mono (by omega) (by simp only [LzjbPlace.width]; omega)

/-- What `|= copymask` does to the bits. -/
theorem testBit_or_mask (b : UInt8) {k : ℕ} (hk : k < 8) (i : ℕ) :
    (b ||| UInt8.ofNat (2 ^ k)).toNat.testBit i = (b.toNat.testBit i || decide (k = i)) := by
  have hmask : (UInt8.ofNat (2 ^ k)).toNat = 2 ^ k :=
    UInt8.toNat_ofNat_of_lt' (Nat.pow_lt_pow_right (by decide) hk)
  rw [UInt8.toNat_or, hmask, Nat.testBit_or, Nat.testBit_two_pow]

/-- A match is written as a reference. -/
theorem Ready.reference (h : Ready text out0 dStart sLen dLen xs s) {offset mlen : ℕ}
    (hlow : lzjbMatchMin ≤ mlen) (hhigh : mlen ≤ lzjbMatchMax) (hoffset : offset ≤ lzjbOffsetMask)
    (hfits : (Piece.copy offset mlen).Fits text s.src) (hle : s.src + mlen ≤ sLen) :
    Encodes text out0 dStart sLen dLen (xs ++ [.copy offset mlen])
      (s.reference dStart offset mlen) := by
  obtain ⟨hlt, hbehind, -⟩ := LzjbPlace.opened_valid (lzjbAfter_valid xs)
  rw [← h.dst_eq, ← h.copymap_eq] at hbehind
  let v := s.out (dStart + s.copymap) ||| UInt8.ofNat s.copymask
  have hmap : (s.reference dStart offset mlen).out (dStart + s.copymap) = v := by
    simp only [LzjbEncoder.reference]
    rw [Function.update_of_ne (by omega), Function.update_of_ne (by omega), Function.update_self]
  have hbit : ∀ i, v.toNat.testBit i = ((s.out (dStart + s.copymap)).toNat.testBit i ||
      decide ((lzjbAfter xs).opened.bit = i)) := by
    intro i
    simp only [v]
    rw [h.copymask_eq]
    exact testBit_or_mask _ hlt i
  refine h.snoc hfits rfl hle rfl rfl rfl ?_ ?_ ⟨?_, ⟨hlow, hhigh, hoffset⟩, ?_, ?_⟩ ?_
  · intro p hp hne
    simp only [LzjbEncoder.reference]
    rw [Function.update_of_ne (by omega), Function.update_of_ne (by omega),
      Function.update_of_ne (by omega)]
  · intro i _ hne
    rw [hmap, hbit]
    simp [hne.symm]
  · rw [← h.copymap_eq, Mem.window, hmap, hbit]
    simp
  · rw [← h.dst_eq, Mem.window]
    simp only [LzjbEncoder.reference]
    rw [Function.update_of_ne (by omega), Function.update_self]
  · rw [← h.dst_eq, Mem.window]
    exact Function.update_self _ _ _
  · intro p hp
    simp only [LzjbPlace.width] at hp
    simp only [LzjbEncoder.reference]
    rw [Function.update_of_ne (by omega), Function.update_of_ne (by omega),
      Function.update_of_ne (by omega)]

/-- The rest of a round writes one more item. -/
theorem Ready.item (h : Ready text out0 dStart sLen dLen xs s) :
    ∃ x, Encodes text out0 dStart sLen dLen (xs ++ [x]) (s.item text address dStart sLen) ∧
      s.src < (s.item text address dStart sLen).src := by
  rw [LzjbEncoder.item]
  split
  · exact ⟨_, h.literal, Nat.lt_succ_self _⟩
  · rename_i hroom
    let hp := hash text s.src
    let offset := ((((address + s.src : ℕ) : ℤ) - s.lempel hp) % (lzjbOffsetMask + 1 : ℕ)).toNat
    let s₁ := { s with lempel := Function.update s.lempel hp ((address + s.src) % 2 ^ 16) }
    have h₁ : Ready text out0 dStart sLen dLen xs s₁ := ⟨h.holds, h.describes, h.src_eq, h.src_le,
      h.dst_eq, h.copymap_eq, h.copymask_eq, h.zero, h.room, h.within⟩
    have hoffset : offset ≤ lzjbOffsetMask := by
      have hmask : (lzjbOffsetMask + 1 : ℕ) = 1024 := rfl
      simp only [offset, hmask]
      omega
    dsimp only
    split
    · rename_i hmatch
      obtain ⟨hback, hne, h0, h1, h2⟩ := hmatch
      let mlen := commonFrom text s.src (s.src - offset) (lzjbMatchMax - lzjbMatchMin) lzjbMatchMin
      have hbounds : lzjbMatchMin ≤ mlen ∧ mlen ≤ lzjbMatchMax := le_commonFrom _ _ _ _ _
      have hthree : lzjbMatchMin = 3 := rfl
      have hfits : (Piece.copy offset mlen).Fits text s.src := by
        refine ⟨Nat.pos_of_ne_zero hne, hback, fun i hi => ?_⟩
        have hsame : text (s.src + i) = text (s.src - offset + i) := by
          by_cases hlong : lzjbMatchMin ≤ i
          · exact commonFrom_agree i hlong hi
          · -- the first three bytes were compared before
            have hcases : i = 0 ∨ i = 1 ∨ i = 2 := by omega
            rcases hcases with rfl | rfl | rfl
            · exact h0
            · exact h1
            · exact h2
        rw [hsame, Nat.sub_add_comm hback]
      refine ⟨_, h₁.reference hbounds.1 hbounds.2 hoffset hfits ?_, ?_⟩
      · change s.src + mlen ≤ sLen
        omega
      · change s.src < s.src + mlen
        omega
    · exact ⟨_, h₁.literal, Nat.lt_succ_self _⟩

/-- A group with a bit left goes on. -/
theorem Encodes.next (h : Encodes text out0 dStart sLen dLen xs s) (hsrc : s.src < sLen)
    (hbit : (lzjbAfter xs).bit ≠ 8) :
    Ready text out0 dStart sLen dLen xs { s with copymask := s.copymask <<< 1 } := by
  have hopen : (lzjbAfter xs).opened = lzjbAfter xs := if_neg hbit
  obtain ⟨hpos, hle, -⟩ := lzjbAfter_valid xs
  refine ⟨h.holds, h.describes, h.src_eq, hsrc, ?_, ?_, ?_, ?_, ?_, h.within⟩
  · rw [hopen]
    exact h.dst_eq
  · rw [hopen]
    exact h.copymap_eq (by omega)
  · rw [hopen]
    simp only [h.copymask_eq, Nat.shiftLeft_eq, ← Nat.pow_add_one, Nat.sub_add_cancel hpos]
  · rw [hopen]
    exact h.zero
  · rw [hopen]
    exact h.room

/-- A full group is followed by a new one, if there is room for all of it. -/
theorem Encodes.openGroup (h : Encodes text out0 dStart sLen dLen xs s) (hsrc : s.src < sLen)
    (hbit : (lzjbAfter xs).bit = 8) (hroom : ¬ dLen ≤ s.dst + 1 + 2 * 8) (mask : ℕ) :
    Ready text out0 dStart sLen dLen xs
      (LzjbEncoder.openGroup dStart { s with copymask := mask }) := by
  have hopen : (lzjbAfter xs).opened = ⟨(lzjbAfter xs).src + 1, (lzjbAfter xs).src, 0⟩ :=
    if_pos hbit
  have hbefore : ∀ p < (lzjbAfter xs).src,
      Function.update s.out (dStart + s.dst) 0 (dStart + p) = s.out (dStart + p) := by
    intro p hp
    rw [← h.dst_eq] at hp
    exact Function.update_of_ne (by omega) _ _
  have hsame : (lzjbAfter xs).Same (s.out.window dStart)
      (Mem.window (Function.update s.out (dStart + s.dst) 0) dStart) := by
    refine ⟨fun p hp _ => hbefore p hp, fun hp i _ => ?_⟩
    simp only [Mem.window, hbefore _ hp]
  refine ⟨?_, h.describes, h.src_eq, hsrc, ?_, ?_, ?_, ?_, ?_, ?_⟩
  · exact h.holds.congr lzjbLayout lzjbStart_valid hsame
  · rw [hopen]
    exact congrArg (· + 1) h.dst_eq
  · rw [hopen]
    exact h.dst_eq
  · rw [hopen]
    rfl
  · intro i _ _
    simp [LzjbEncoder.openGroup]
  · rw [hopen]
    simp only [LzjbEncoder.openGroup]
    omega
  · have hone := writesWithin_update s.out (dStart + s.dst) 0
    exact h.within.trans (hone.mono (by omega) (by omega))

/-- What the function returns: the input is not compressible, or it is written as items. -/
def Returns (text out0 : Mem) (dStart sLen dLen : ℕ) (r : ℕ × Mem) : Prop :=
  Mem.WritesWithin out0 r.2 dStart dLen ∧
    (r.1 = sLen ∨ r.1 ≤ dLen ∧ ∃ xs, lzjbLayout.Holds (r.2.window dStart) lzjbStart xs ∧
      Describes text 0 xs ∧ piecesSize xs = sLen ∧ (lzjbAfter xs).src = r.1)

/-- A round writes one more item, or it is the last. -/
theorem Encodes.step (address : ℕ) (h : Encodes text out0 dStart sLen dLen xs s) :
    match s.step text address dStart sLen dLen with
    | .inl s' => (∃ x, Encodes text out0 dStart sLen dLen (xs ++ [x]) s') ∧ s.src < s'.src
    | .inr r => Returns text out0 dStart sLen dLen r := by
  obtain ⟨hpos, hle, -⟩ := lzjbAfter_valid xs
  have hmask : s.copymask <<< 1 = 2 ^ (lzjbAfter xs).bit := by
    rw [h.copymask_eq, Nat.shiftLeft_eq, ← Nat.pow_add_one, Nat.sub_add_cancel hpos]
  rw [LzjbEncoder.step]
  by_cases hsrc : s.src < sLen
  · simp only [if_pos hsrc]
    by_cases hbit : (lzjbAfter xs).bit = 8
    · have hfull : s.copymask <<< 1 = 1 <<< 8 := by rw [hmask, hbit, Nat.one_shiftLeft]
      simp only [if_pos hfull]
      by_cases hroom : dLen ≤ s.dst + 1 + 2 * 8
      · simp only [if_pos hroom]
        exact ⟨h.within, Or.inl rfl⟩
      · simp only [if_neg hroom]
        obtain ⟨x, hx, hlt⟩ := (h.openGroup hsrc hbit hroom (s.copymask <<< 1)).item
        exact ⟨⟨x, hx⟩, hlt⟩
    · have hfull : ¬ s.copymask <<< 1 = 1 <<< 8 := by
        rw [hmask, Nat.one_shiftLeft]
        exact fun heq => hbit (Nat.pow_right_injective le_rfl heq)
      simp only [if_neg hfull]
      obtain ⟨x, hx, hlt⟩ := (h.next hsrc hbit).item
      exact ⟨⟨x, hx⟩, hlt⟩
  · simp only [if_neg hsrc]
    have hroom := h.room
    have hsize := h.src_eq
    have hend := h.src_le
    exact ⟨h.within, Or.inr ⟨by omega, xs, h.holds, h.describes, by omega, h.dst_eq.symm⟩⟩

end LzjbEncoder

/-- The function returns, and what it wrote holds the text, wherever that lies. -/
theorem lzjbCompress2010_spec (text : Mem) (address : ℕ) (out0 : Mem) (dStart sLen dLen : ℕ) :
    ∃ r, lzjbCompress2010 text address out0 dStart sLen dLen = some r ∧
      LzjbEncoder.Returns text out0 dStart sLen dLen r := by
  let I : LzjbEncoder → Prop := fun s => ∃ xs, LzjbEncoder.Encodes text out0 dStart sLen dLen xs s
  have hinit : I (.init out0) := ⟨[], trivial, trivial, rfl, Nat.zero_le _, rfl, fun _ => rfl, rfl,
    fun i hi hlt => absurd hlt (Nat.not_lt_of_le hi), Nat.zero_le _, Mem.writesWithin_refl _ _ _⟩
  have hnext : ∀ s s', I s → s.step text address dStart sLen dLen = .inl s' →
      I s' ∧ sLen - s'.src < sLen - s.src := by
    rintro s s' ⟨xs, hs⟩ hstep
    have hround := hs.step address
    rw [hstep] at hround
    obtain ⟨⟨x, hx⟩, hlt⟩ := hround
    have hle := hx.src_le
    exact ⟨⟨_, hx⟩, by omega⟩
  have hlast : ∀ s r, I s → s.step text address dStart sLen dLen = .inr r →
      LzjbEncoder.Returns text out0 dStart sLen dLen r := by
    rintro s r ⟨xs, hs⟩ hstep
    have hround := hs.step address
    rwa [hstep] at hround
  obtain ⟨r, hr, hrun⟩ := total_loopTo (fun s : LzjbEncoder => sLen - s.src) hnext hlast hinit
  exact ⟨r, hrun (sLen + 1) (by simp only [LzjbEncoder.init]; omega), hr⟩

/-! ## The codec -/

section Codec

variable {σ : Type} {behind : CompressFunc σ}

/-- `lzbench_lzjb_compress`, with the input buffer at `address`. -/
def lzbenchLzjbCompress (address : ℕ) : CompressFunc σ := fun a w =>
  match lzjbCompress2010 (a.inbuf.window a.inpos) (address + a.inpos) a.outbuf a.outpos a.insize
      a.outsize with
  | some r => ⟨toInt64 r.1, r.2, w⟩
  | none => ⟨0, a.outbuf, w⟩

/-- `lzbench_lzjb_decompress`; `behind` is whatever happens in a call that reads behind its
code. -/
def lzbenchLzjbDecompress (behind : CompressFunc σ) : CompressFunc σ := fun a w =>
  match lzjbDecompress2010 (a.inbuf.window a.inpos) a.insize a.outbuf a.outpos a.outsize with
  | some (.ok r) => ⟨toInt64 r.1, r.2, w⟩
  | _ => behind a w

/-- What the compressor does with a call: a result that is not the size of the input is that
of a code. -/
theorem lzbenchLzjbCompress_spec (address : ℕ) (a : CodecArgs) (w : σ) :
    ∃ n : ℕ, (lzbenchLzjbCompress address a w).ret = toInt64 n ∧
      Mem.WritesWithin a.outbuf (lzbenchLzjbCompress address a w).out a.outpos a.outsize ∧
      (n = a.insize ∨ n ≤ a.outsize ∧ ∃ xs,
        lzjbLayout.Holds ((lzbenchLzjbCompress address a w).out.window a.outpos) lzjbStart xs ∧
        Describes (a.inbuf.window a.inpos) 0 xs ∧ piecesSize xs = a.insize ∧
        (lzjbAfter xs).src = n) := by
  obtain ⟨r, hr, hwithin, hcode⟩ := lzjbCompress2010_spec (a.inbuf.window a.inpos)
    (address + a.inpos) a.outbuf a.outpos a.insize a.outsize
  have hcall : lzbenchLzjbCompress address a w = ⟨toInt64 r.1, r.2, w⟩ := by
    simp only [lzbenchLzjbCompress, hr]
  rw [hcall]
  exact ⟨r.1, rfl, hwithin, hcode⟩

/-- Of the sizes for which nine eighths are a size as well. -/
def lzjbMaxSize : ℕ := 2 ^ 62

/-- Nine eighths of the chunk and a byte, the most that it is coded in. -/
def lzjbGrow (n : ℕ) : ℕ := n + n / 8 + 1

variable {address : ℕ}

/-- What is taken for a code is one. -/
theorem lzbenchLzjbCompress_coded (a : CodecArgs) (w : σ) :
    let r := (lzbenchLzjbCompress address : CompressFunc σ).upTo lzjbMaxSize a w
    0 < r.ret → r.ret ≠ a.insize →
    (r.ret.toNat ≤ a.outsize ∧ a.insize ≤ lzjbMaxSize) ∧ ∃ xs,
      lzjbLayout.Holds (r.out.window a.outpos) lzjbStart xs ∧
      Describes (a.inbuf.window a.inpos) 0 xs ∧ piecesSize xs = a.insize ∧
      (lzjbAfter xs).src = r.ret.toNat := by
  intro r hpos hne
  have hmax : lzjbMaxSize = 2 ^ 62 := rfl
  have hptr : ptrdiffMax = 2 ^ 63 - 1 := rfl
  by_cases hsize : a.insize ≤ lzjbMaxSize
  · have hr : r = lzbenchLzjbCompress address a w := if_pos hsize
    obtain ⟨n, hret, -, hcode⟩ := lzbenchLzjbCompress_spec address a w
    rw [← hr] at hret hcode
    rcases hcode with rfl | ⟨hle, xs, hholds, hfits, hpieces, hend⟩
    · exact absurd (hret.trans (toInt64_ofNat (by omega))) hne
    · have hcode : 8 * (lzjbAfter xs).src + (lzjbAfter xs).bit ≤ 9 * (0 + piecesSize xs) + 8 :=
        lzjb_src_le hholds (by decide)
      rw [toInt64_ofNat (by omega)] at hret
      rw [hret, Int.toNat_natCast]
      exact ⟨⟨hle, hsize⟩, xs, hholds, hfits, hpieces, hend⟩
  · have hr : r.ret = 0 := by simp [r, CompressFunc.upTo, hsize]
    omega

theorem codesWithin_lzjb :
    CodesWithin lzjbGrow ((lzbenchLzjbCompress address : CompressFunc σ).upTo lzjbMaxSize) := by
  intro a w hpos hne
  obtain ⟨⟨hle, -⟩, xs, hholds, -, hpieces, hend⟩ := lzbenchLzjbCompress_coded a w hpos hne
  have hcode : 8 * (lzjbAfter xs).src + (lzjbAfter xs).bit ≤ 9 * (0 + piecesSize xs) + 8 :=
    lzjb_src_le hholds (by decide)
  simp only [lzjbGrow]
  omega

/-- What the compressor makes of a chunk is decompressed to it, wherever the input and the
codes lie. -/
theorem roundTrips_lzjb :
    RoundTrips ((lzbenchLzjbCompress address : CompressFunc σ).upTo lzjbMaxSize)
      (lzbenchLzjbDecompress behind) := by
  refine ⟨fun a w => ?_, fun a w hpos hne => ?_, fun a w hpos hne => ?_⟩
  · obtain ⟨n, -, hwithin, -⟩ := lzbenchLzjbCompress_spec address a w
    simp only [CompressFunc.upTo]
    split
    · exact hwithin
    · exact Mem.writesWithin_refl _ _ _
  · exact (codesWithin_lzjb a w hpos hne).1
  · obtain ⟨⟨-, hsize⟩, xs, hholds, hfits, hpieces, hend⟩ :=
      lzbenchLzjbCompress_coded a w hpos hne
    intro src srcpos dst dstpos w' hbytes
    rw [Mem.length_bytes] at hbytes
    have hsame : (lzjbAfter xs).Same
        (Mem.window ((lzbenchLzjbCompress address).upTo lzjbMaxSize a w).out a.outpos)
        (src.window srcpos) := by
      rw [LzjbPlace.Same, hend]
      refine ⟨fun p hp _ => Mem.window_eq_of_bytes hbytes hp, fun hp i _ => ?_⟩
      rw [Mem.window_eq_of_bytes hbytes hp]
    obtain ⟨out, hrun, hout, hwithin⟩ := lzjbDecompress2010_spec
      (hholds.congr lzjbLayout lzjbStart_valid hsame) hfits hend.le hpieces dst dstpos
    have hret : toInt64 (a.insize : ℤ) = a.insize := toInt64_ofNat (hsize.trans (by decide))
    simp only [lzbenchLzjbDecompress, Mem.length_bytes, hrun, hret]
    refine ⟨trivial, fun i hi => ?_, hwithin⟩
    have hbyte := hout i hi
    rwa [Nat.zero_add] at hbyte

/-- The row `lzjb`, with its two functions. -/
theorem compDesc_lzjb {wrappers : Wrappers σ} {desc : CompressorDesc σ}
    (hdesc : desc ∈ compDesc wrappers) (hname : desc.name = "lzjb") :
    desc.compress = wrappers.code "lzbench_lzjb_compress" ∧
      desc.decompress = wrappers.code "lzbench_lzjb_decompress" := by
  refine compDesc_code hdesc ?_
  rw [hname]
  decide +kernel

/-- The codes of the chunks take at most nine eighths of the files and a byte for each chunk. -/
theorem sum_lzjbGrow_le (chunkSizes : List ℕ) :
    (chunkSizes.map lzjbGrow).sum ≤
      chunkSizes.sum + chunkSizes.sum / 8 + chunkSizes.length := by
  induction chunkSizes with
  | nil => simp
  | cons part rest ih =>
    simp only [List.map_cons, List.sum_cons, List.length_cons, lzjbGrow] at ih ⊢
    omega

/-- Every row of `lzjb` is that of a success: what it codes is decompressed again, and there is
room for it unless the files are many and small. -/
theorem lzbenchTest_lzjb {env : Env σ} {params : LzbenchParams} {fileSizes : List ℕ}
    {wrappers : Wrappers σ} {desc : CompressorDesc σ} {level : ℤ} {inbuf : Mem} {insize : ℕ}
    {comprsize : UInt64} {param1 fuel : ℕ} {compbuf decomp : Mem} {w : σ}
    (hcompress : wrappers.code "lzbench_lzjb_compress" = some (lzbenchLzjbCompress address))
    (hdecompress : wrappers.code "lzbench_lzjb_decompress" = some (lzbenchLzjbDecompress behind))
    (hdesc : desc ∈ compDesc wrappers) (hname : desc.name = "lzjb")
    (hsum : fileSizes.sum = insize) (hsize : insize ≤ lzjbMaxSize)
    (hfew : FewChunks params fileSizes desc insize)
    (hroom : ∀ chunkSizes, splitFiles (effectiveChunkSize params.chunkSize insize
      desc.maxBlockSize) fileSizes = some chunkSizes →
      insize + insize / 8 + chunkSizes.length ≤ comprsize.toNat) :
    Ends (fun res => ∀ rep, res.report = some rep → rep.compression.aborted = false ∧
        rep.decompression.decompError = false)
      (fun f => f.stop ≠ .exitFailure)
      (lzbenchTest env params fileSizes desc level inbuf insize comprsize param1 fuel compbuf
        decomp w) := by
  obtain ⟨hrowc, hrowd⟩ := compDesc_lzjb hdesc hname
  have hobj : insize ≤ ptrdiffMax := hsize.trans (by decide)
  refine ends_lzbenchTest_neverAborts ?back ?never hsum hobj
  case back =>
    refine desc.givesBack_of_upTo (fun compress decompress hc hd => ?_) hsum hsize hobj hfew
    obtain rfl : _ = compress := Option.some.inj ((hrowc.trans hcompress).symm.trans hc)
    obtain rfl : _ = decompress := Option.some.inj ((hrowd.trans hdecompress).symm.trans hd)
    exact roundTrips_lzjb
  case never =>
    intro compress workmem chunkSizes hc hchunks comprSizes buf w' r hr
    obtain rfl : _ = compress := Option.some.inj ((hrowc.trans hcompress).symm.trans hc)
    have htotal : chunkSizes.sum = insize := (splitFiles_some hchunks).1.trans hsum
    refine lzbenchCompress_not_aborted codesWithin_lzjb (fun n => ?_) (fun part hpart => ?_)
      (hfew _ hchunks) ?_ hr
    · simp only [lzjbGrow]
      omega
    · exact (List.le_sum_of_mem hpart).trans (htotal.trans_le hsize)
    · have hgrow := sum_lzjbGrow_le chunkSizes
      have hcap := hroom _ hchunks
      omega

end Codec

/-- The two functions, with the input at `4096`. -/
def lzjbWrappers : Wrappers ℕ where
  code name :=
    if name = "lzbench_lzjb_compress" then some (lzbenchLzjbCompress 4096)
    else if name = "lzbench_lzjb_decompress" then
      some (lzbenchLzjbDecompress fun a w => ⟨0, a.outbuf, w⟩)
    else none
  init _ := none
  deinit _ := none

/-- The row of the table. -/
def lzjbDesc : CompressorDesc ℕ :=
  CompEntry.desc lzjbWrappers ⟨"lzjb", "2010", 0, 0, 0, 0,
    "lzbench_lzjb_compress", "lzbench_lzjb_decompress", none, none⟩

/-- Two files of two bytes and of one. -/
theorem lzbenchTest_lzjb_two :
    ∃ res rep, lzbenchTest (tickingEnv 3000000000) defaultParams [2, 1] lzjbDesc 0
        (Mem.ofList [7, 8, 9]) 3 20000 0 2 (Mem.ofList []) (Mem.ofList []) 0 = .ok res ∧
      res.report = some rep ∧
      rep.compression.complen = 5 ∧ rep.compression.aborted = false ∧
      rep.decompression.decompError = false := by
  have hrun : ∃ res rep, lzbenchTest (tickingEnv 3000000000) defaultParams [2, 1] lzjbDesc 0
      (Mem.ofList [7, 8, 9]) 3 20000 0 2 (Mem.ofList []) (Mem.ofList []) 0 = .ok res ∧
      res.report = some rep ∧ rep.compression.complen = 5 :=
    ⟨_, _, rfl, rfl, rfl⟩
  obtain ⟨res, rep, hrun, hrep, hlen⟩ := hrun
  have hrow : lzjbDesc ∈ compDesc lzjbWrappers := List.mem_map.mpr ⟨_, by decide +kernel, rfl⟩
  have hsum : [2, 1].sum = 3 := rfl
  have hfew : FewChunks defaultParams [2, 1] lzjbDesc 3 := by
    rintro chunkSizes ⟨⟩
    decide
  have hroom : ∀ chunkSizes, splitFiles (effectiveChunkSize defaultParams.chunkSize 3
      lzjbDesc.maxBlockSize) [2, 1] = some chunkSizes →
      3 + 3 / 8 + chunkSizes.length ≤ (20000 : UInt64).toNat := by
    rintro chunkSizes ⟨⟩
    decide
  exact ⟨res, rep, hrun, hrep, hlen, (lzbenchTest_lzjb rfl rfl hrow rfl hsum (by decide) hfew
    hroom).ok res hrun rep hrep⟩

end Lzbench
