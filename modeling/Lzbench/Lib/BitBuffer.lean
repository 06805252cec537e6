import Mathlib.Data.Nat.Bitwise

/-!
# Bit buffers

A word in which bits are collected, from the lowest one on, and from which they are taken again
in the same order.  What is written through such a buffer, and what is read through one, is
compared with a stream of bits `f : ℕ → Bool`: the buffer holds those from some place on.

## Main definitions

* `BitBuffer` — the word, and how many bits of it are in use.
* `BitBuffer.Holds` — it has the bits of a stream from a place on.
* `Spells` — the bits of a stream from a place on are those of some numbers.
* `byteBits` — the stream that lies in memory.
* `Emitted` — what has been written lies in memory.
-/

namespace Imperative

/-- A word of `w` bits with `len` bits in use. -/
structure BitBuffer (w : ℕ) where
  buf : ℕ
  len : ℕ

namespace BitBuffer

variable {w : ℕ}

def empty : BitBuffer w := ⟨0, 0⟩

/-- `n` bits are put in. -/
def input (b : BitBuffer w) (code n : ℕ) : BitBuffer w :=
  ⟨(b.buf ||| code <<< b.len) % 2 ^ w, b.len + n⟩

/-- The next `n` bits. -/
def peek (b : BitBuffer w) (n : ℕ) : ℕ := b.buf &&& (2 ^ n - 1)

/-- The next `n` bits are taken.  There may be fewer. -/
def output (b : BitBuffer w) (n : ℕ) : ℕ × BitBuffer w := (b.peek n, ⟨b.buf >>> n, b.len - n⟩)

@[simp] theorem len_empty : (empty : BitBuffer w).len = 0 := rfl

@[simp] theorem len_input (b : BitBuffer w) (code n : ℕ) : (b.input code n).len = b.len + n := rfl

@[simp] theorem len_output (b : BitBuffer w) (n : ℕ) : (b.output n).2.len = b.len - n := rfl

theorem testBit_peek (b : BitBuffer w) (n i : ℕ) :
    (b.peek n).testBit i = (decide (i < n) && b.buf.testBit i) := by
  rw [peek, Nat.and_two_pow_sub_one_eq_mod, Nat.testBit_mod_two_pow]

theorem peek_lt (b : BitBuffer w) (n : ℕ) : b.peek n < 2 ^ n := by
  rw [peek, Nat.and_two_pow_sub_one_eq_mod]
  exact Nat.mod_lt _ (Nat.two_pow_pos n)

/-- The buffer has the bits of the stream from `p` on. -/
def Holds (b : BitBuffer w) (f : ℕ → Bool) (p : ℕ) : Prop :=
  ∀ i, b.buf.testBit i = (decide (i < b.len) && f (p + i))

variable {b : BitBuffer w} {f : ℕ → Bool} {p : ℕ}

theorem holds_empty (f : ℕ → Bool) (p : ℕ) : (empty : BitBuffer w).Holds f p := by
  intro i
  simp [empty]

/-- The stream goes on with what is put in. -/
theorem Holds.input (h : b.Holds f p) {code n : ℕ} (hcode : code < 2 ^ n)
    (hbits : ∀ i < n, f (p + b.len + i) = code.testBit i) (hfit : b.len + n ≤ w) :
    (b.input code n).Holds f p := by
  intro i
  simp only [BitBuffer.input, Nat.testBit_mod_two_pow, Nat.testBit_or, Nat.testBit_shiftLeft,
    h i]
  by_cases hold : i < b.len
  · simp [hold, show i < w by omega, show i < b.len + n by omega, show ¬ b.len ≤ i by omega]
  · by_cases hnew : i < b.len + n
    · have hbit := hbits (i - b.len) (by omega)
      rw [show p + b.len + (i - b.len) = p + i by omega] at hbit
      simp [hold, hnew, show i < w by omega, show b.len ≤ i by omega, hbit]
    · have hzero : code.testBit (i - b.len) = false :=
        Nat.testBit_lt_two_pow (hcode.trans_le (Nat.pow_le_pow_right Nat.two_pos (by omega)))
      simp [hold, hnew, hzero]

/-- What is taken is no longer there. -/
theorem Holds.output (h : b.Holds f p) (n : ℕ) : (b.output n).2.Holds f (p + n) := by
  intro i
  have hlen : decide (n + i < b.len) = decide (i < b.len - n) :=
    decide_eq_decide.mpr (by omega)
  rw [BitBuffer.output, Nat.testBit_shiftRight, h (n + i), hlen, Nat.add_assoc]

theorem Holds.testBit_peek (h : b.Holds f p) {n i : ℕ} (hi : i < n) (hlen : i < b.len) :
    (b.peek n).testBit i = f (p + i) := by
  rw [BitBuffer.testBit_peek, h i, decide_eq_true hi, decide_eq_true hlen, Bool.true_and,
    Bool.true_and]

/-- What the stream goes on with is what is seen. -/
theorem Holds.peek_eq (h : b.Holds f p) {v n : ℕ} (hv : v < 2 ^ n) (hlen : n ≤ b.len)
    (hbits : ∀ i < n, f (p + i) = v.testBit i) : b.peek n = v := by
  refine Nat.eq_of_testBit_eq fun i => ?_
  by_cases hi : i < n
  · rw [h.testBit_peek hi (hi.trans_le hlen), hbits i hi]
  · rw [BitBuffer.testBit_peek, decide_eq_false hi, Bool.false_and]
    exact (Nat.testBit_lt_two_pow
      (hv.trans_le (Nat.pow_le_pow_right Nat.two_pos (by omega)))).symm

end BitBuffer

/-! ## Streams -/

/-- The bits from `p` on are those of the numbers, each with as many bits as stands with it. -/
def Spells (f : ℕ → Bool) : ℕ → List (ℕ × ℕ) → Prop
  | _, [] => True
  | p, (v, n) :: l => v < 2 ^ n ∧ (∀ i < n, f (p + i) = v.testBit i) ∧ Spells f (p + n) l

/-- How many bits there are. -/
def bitLength (l : List (ℕ × ℕ)) : ℕ := (l.map Prod.snd).sum

/-- All bits of the numbers, as one number. -/
def spelled : List (ℕ × ℕ) → ℕ
  | [] => 0
  | (v, n) :: l => v ||| spelled l <<< n

@[simp] theorem bitLength_nil : bitLength [] = 0 := rfl

@[simp] theorem bitLength_cons (v n : ℕ) (l : List (ℕ × ℕ)) :
    bitLength ((v, n) :: l) = n + bitLength l := by simp [bitLength]

@[simp] theorem bitLength_append (l l' : List (ℕ × ℕ)) :
    bitLength (l ++ l') = bitLength l + bitLength l' := by simp [bitLength]

theorem spells_append {f : ℕ → Bool} {p : ℕ} {l l' : List (ℕ × ℕ)} :
    Spells f p (l ++ l') ↔ Spells f p l ∧ Spells f (p + bitLength l) l' := by
  induction l generalizing p with
  | nil => simp [Spells]
  | cons q l ih =>
    obtain ⟨v, n⟩ := q
    simp only [List.cons_append, Spells, ih, bitLength_cons, Nat.add_assoc, and_assoc]

/-- A stream spells what another one spells that begins in the same way. -/
theorem Spells.congr {f g : ℕ → Bool} {p q : ℕ} {l : List (ℕ × ℕ)} (h : Spells f p l)
    (hfg : ∀ i < bitLength l, g (q + i) = f (p + i)) : Spells g q l := by
  induction l generalizing p q with
  | nil => trivial
  | cons r l ih =>
    obtain ⟨v, n⟩ := r
    rw [bitLength_cons] at hfg
    refine ⟨h.1, fun i hi => (hfg i (by omega)).trans (h.2.1 i hi), ih h.2.2 fun i hi => ?_⟩
    have hnext := hfg (n + i) (by omega)
    rwa [← Nat.add_assoc, ← Nat.add_assoc] at hnext

/-- There is such a stream. -/
theorem spells_spelled {l : List (ℕ × ℕ)} (hl : ∀ q ∈ l, q.1 < 2 ^ q.2) :
    Spells (spelled l).testBit 0 l := by
  induction l with
  | nil => trivial
  | cons q l ih =>
    obtain ⟨v, n⟩ := q
    have hv : v < 2 ^ n := hl (v, n) (by simp)
    refine ⟨hv, fun i hi => ?_, (ih fun q hq => hl q (by simp [hq])).congr fun i _ => ?_⟩
    · rw [spelled, Nat.testBit_or, Nat.testBit_shiftLeft, Nat.zero_add]
      simp [show ¬ n ≤ i by omega]
    · have hzero : v.testBit (n + i) = false :=
        Nat.testBit_lt_two_pow (hv.trans_le (Nat.pow_le_pow_right Nat.two_pos (by omega)))
      rw [spelled, Nat.testBit_or, Nat.testBit_shiftLeft, Nat.zero_add, Nat.zero_add, hzero]
      simp

/-- After the last number there are no more ones. -/
theorem spelled_lt {l : List (ℕ × ℕ)} (hl : ∀ q ∈ l, q.1 < 2 ^ q.2) :
    spelled l < 2 ^ bitLength l := by
  induction l with
  | nil => simp [spelled]
  | cons q l ih =>
    obtain ⟨v, n⟩ := q
    have hv : v < 2 ^ n := hl (v, n) (by simp)
    rw [spelled, bitLength_cons]
    refine Nat.or_lt_two_pow (hv.trans_le (Nat.pow_le_pow_right Nat.two_pos (by omega))) ?_
    rw [Nat.shiftLeft_eq, Nat.pow_add, Nat.mul_comm (2 ^ n)]
    exact Nat.mul_lt_mul_of_pos_right (ih fun q hq => hl q (by simp [hq])) (Nat.two_pow_pos n)

/-- Numbers are put in, one after the other. -/
theorem BitBuffer.Holds.inputs {w : ℕ} {b : BitBuffer w} {f : ℕ → Bool} {p : ℕ}
    {l : List (ℕ × ℕ)} (h : b.Holds f p) (hl : Spells f (p + b.len) l)
    (hfit : b.len + bitLength l ≤ w) :
    (l.foldl (fun b q => b.input q.1 q.2) b).Holds f p ∧
      (l.foldl (fun b q => b.input q.1 q.2) b).len = b.len + bitLength l := by
  induction l generalizing b with
  | nil => exact ⟨h, rfl⟩
  | cons q l ih =>
    obtain ⟨v, n⟩ := q
    rw [bitLength_cons] at hfit
    obtain ⟨hv, hbits, hrest⟩ := hl
    rw [Nat.add_assoc] at hrest
    have hnext := ih (h.input hv hbits (by omega)) hrest (by rw [len_input]; omega)
    rwa [len_input, Nat.add_assoc, ← bitLength_cons v n l] at hnext

/-! ## Bytes -/

/-- The bits in memory from `start` on. -/
def byteBits (m : ℕ → UInt8) (start i : ℕ) : Bool := (m (start + i / 8)).toNat.testBit (i % 8)

theorem byteBits_add (m : ℕ → UInt8) (start j : ℕ) {i : ℕ} (hi : i < 8) :
    byteBits m start (8 * j + i) = (m (start + j)).toNat.testBit i := by
  rw [byteBits, show (8 * j + i) / 8 = j by omega, show (8 * j + i) % 8 = i by omega]

/-- The bytes have the bits of the stream from the beginning on. -/
def Emitted (f : ℕ → Bool) (bytes : List UInt8) : Prop :=
  ∀ j < bytes.length, ∀ i < 8, (bytes.getD j 0).toNat.testBit i = f (8 * j + i)

/-- The next byte of the buffer is written. -/
theorem Emitted.append {w : ℕ} {b : BitBuffer w} {f : ℕ → Bool} {bytes : List UInt8}
    (h : Emitted f bytes) (hb : b.Holds f (8 * bytes.length))
    (hend : ∀ i, b.len ≤ i → i < 8 → f (8 * bytes.length + i) = false) :
    Emitted f (bytes ++ [.ofNat (b.output 8).1]) := by
  intro j hj i hi
  rw [List.length_append, List.length_singleton] at hj
  by_cases hlast : j < bytes.length
  · rw [List.getD_append _ _ _ _ hlast]
    exact h j hlast i hi
  · obtain rfl : j = bytes.length := by omega
    have hbyte : (UInt8.ofNat (b.output 8).1).toNat = b.peek 8 :=
      UInt8.toNat_ofNat_of_lt' (b.peek_lt 8)
    rw [List.getD_append_right _ _ _ _ le_rfl, Nat.sub_self, List.getD_cons_zero, hbyte,
      BitBuffer.testBit_peek, hb i, decide_eq_true hi, Bool.true_and]
    by_cases hlen : i < b.len
    · rw [decide_eq_true hlen, Bool.true_and]
    · rw [decide_eq_false hlen, Bool.false_and, hend i (not_lt.mp hlen) hi]

end Imperative
