import Mathlib.Algebra.Group.Nat.Defs
import Mathlib.Data.List.Basic
import Lzbench.Lib.Memory

/-!
# Texts as pieces, and their layout in memory

A text is described by pieces: bytes, and copies of what stands some distance before.  A
copy may be longer than its distance, and then it repeats what it has itself put down; a
loop that copies byte by byte does just that.

A list of pieces is laid out in memory one behind the other, where the place of a piece
depends on those before it.  What is laid out stays so when something is written behind it.

## Main definitions

* `Piece`, `Describes` — a piece, and what a list of them says of a text.
* `copyBytes`, `Piece.put` — a copy byte by byte, and what a decoder does for a piece.
* `Layout`, `Layout.Holds` — where a piece is found, and a list of them.
-/

namespace Imperative

/-- The memory as seen from `d`. -/
def Mem.window (m : Mem) (d : ℕ) : Mem := fun p => m (d + p)

theorem Mem.window_eq_of_bytes {m m' : Mem} {d d' n : ℕ} (h : m.bytes d n = m'.bytes d' n)
    {i : ℕ} (hi : i < n) : m.window d i = m'.window d' i :=
  Mem.bytes_eq_bytes_iff.mp h i hi

/-- A byte, or the `length` bytes that stand `dist` before. -/
inductive Piece
  | literal (b : UInt8)
  | copy (dist length : ℕ)
  deriving DecidableEq, Repr

namespace Piece

def size : Piece → ℕ
  | literal _ => 1
  | copy _ length => length

@[simp] theorem size_literal (b : UInt8) : (literal b).size = 1 := rfl
@[simp] theorem size_copy (dist length : ℕ) : (copy dist length).size = length := rfl

/-- The piece says what is in the text at `p`. -/
def Fits (text : Mem) (p : ℕ) : Piece → Prop
  | literal b => text p = b
  | copy dist length => 0 < dist ∧ dist ≤ p ∧ ∀ i < length, text (p + i) = text (p + i - dist)

end Piece

/-- How far two places of a memory agree, from the `k`-th byte on and for at most `n` bytes:
`for (; n--; k++) if (a[k] != b[k]) break;`. -/
def commonFrom (m : Mem) (a b : ℕ) : ℕ → ℕ → ℕ
  | 0, k => k
  | n + 1, k => if m (a + k) = m (b + k) then commonFrom m a b n (k + 1) else k

theorem le_commonFrom (m : Mem) (a b n k : ℕ) :
    k ≤ commonFrom m a b n k ∧ commonFrom m a b n k ≤ k + n := by
  induction n generalizing k with
  | zero => simp [commonFrom]
  | succ n ih =>
    have hrest := ih (k + 1)
    rw [commonFrom]
    split <;> omega

theorem commonFrom_agree {m : Mem} {a b n k : ℕ} :
    ∀ i, k ≤ i → i < commonFrom m a b n k → m (a + i) = m (b + i) := by
  induction n generalizing k with
  | zero =>
    intro i hk hi
    simp only [commonFrom] at hi
    omega
  | succ n ih =>
    intro i hk hi
    rw [commonFrom] at hi
    split at hi
    · rename_i hsame
      by_cases hfirst : i = k
      · rw [hfirst]
        exact hsame
      · exact ih i (by omega) hi
    · omega

/-- `while (n--) *d++ = *s++`. -/
def copyBytes (m : Mem) (d s : ℕ) : ℕ → Mem
  | 0 => m
  | n + 1 => copyBytes (Function.update m d (m s)) (d + 1) (s + 1) n

/-- What a decoder does for a piece, with its output pointer at `q`. -/
def Piece.put (m : Mem) (q : ℕ) : Piece → Mem
  | literal b => Function.update m q b
  | copy dist length => copyBytes m q (q - dist) length

theorem writesWithin_update (m : Mem) (q : ℕ) (b : UInt8) :
    Mem.WritesWithin m (Function.update m q b) q 1 := by
  intro p hp
  exact Function.update_of_ne (by omega) _ _

theorem writesWithin_copyBytes (m : Mem) (d s n : ℕ) :
    Mem.WritesWithin m (copyBytes m d s n) d n := by
  induction n generalizing m d s with
  | zero => exact Mem.writesWithin_refl m d 0
  | succ n ih =>
    have hfirst := (writesWithin_update m d (m s)).mono (le_refl d) (show _ ≤ d + (n + 1) by omega)
    exact hfirst.trans ((ih _ (d + 1) (s + 1)).mono (by omega) (by omega))

/-- The text goes on behind `p` with a byte that is put there. -/
theorem sameBytes_update {m text : Mem} {base p : ℕ} (h : Mem.SameBytes m base text 0 p) :
    Mem.SameBytes (Function.update m (base + p) (text p)) base text 0 (p + 1) := by
  intro i hi
  rw [Nat.zero_add]
  by_cases hlast : i = p
  · rw [hlast, Function.update_self]
  · rw [Function.update_of_ne (by omega)]
    have hbefore := h i (by omega)
    rwa [Nat.zero_add] at hbefore

/-- Copying what the text repeats, byte by byte, puts down the text. -/
theorem sameBytes_copyBytes {m text : Mem} {base p dist n : ℕ} (hpos : 0 < dist) (hle : dist ≤ p)
    (hrepeat : ∀ i < n, text (p + i) = text (p + i - dist))
    (h : Mem.SameBytes m base text 0 p) :
    Mem.SameBytes (copyBytes m (base + p) (base + p - dist) n) base text 0 (p + n) := by
  induction n generalizing m p with
  | zero => exact h
  | succ n ih =>
    -- the byte read is one of the text that is already there
    have hread : m (base + p - dist) = text p := by
      have hsame := h (p - dist) (by omega)
      rw [Nat.zero_add] at hsame
      have hfirst := hrepeat 0 (by omega)
      rw [Nat.add_zero] at hfirst
      rw [hfirst, ← hsame, Nat.add_sub_assoc hle]
    have hnext := ih (p := p + 1) (by omega) (fun i hi => ?_) (sameBytes_update h)
    · rw [copyBytes, hread]
      have hs : base + p - dist + 1 = base + (p + 1) - dist := by omega
      have hn : p + (n + 1) = p + 1 + n := by omega
      rw [hs, hn]
      exact hnext
    · have hi := hrepeat (i + 1) (by omega)
      have hadd : p + (i + 1) = p + 1 + i := by omega
      rwa [hadd] at hi

namespace Piece

variable {x : Piece} {m text : Mem} {base p : ℕ}

theorem writesWithin_put (x : Piece) (m : Mem) (q : ℕ) :
    Mem.WritesWithin m (x.put m q) q x.size := by
  cases x with
  | literal b => exact writesWithin_update m q b
  | copy dist length => exact writesWithin_copyBytes m q (q - dist) length

/-- A piece that fits is put down right. -/
theorem Fits.put (h : x.Fits text p) (hm : Mem.SameBytes m base text 0 p) :
    Mem.SameBytes (x.put m (base + p)) base text 0 (p + x.size) := by
  cases x with
  | literal b =>
    obtain rfl : text p = b := h
    exact sameBytes_update hm
  | copy dist length => exact sameBytes_copyBytes h.1 h.2.1 h.2.2 hm

end Piece

/-! ## Lists of pieces -/

/-- The text from `p` on is that of the pieces. -/
def Describes (text : Mem) : ℕ → List Piece → Prop
  | _, [] => True
  | p, x :: xs => x.Fits text p ∧ Describes text (p + x.size) xs

/-- The size of the text. -/
def piecesSize (xs : List Piece) : ℕ := (xs.map Piece.size).sum

@[simp] theorem piecesSize_nil : piecesSize [] = 0 := rfl

@[simp] theorem piecesSize_cons (x : Piece) (xs : List Piece) :
    piecesSize (x :: xs) = x.size + piecesSize xs := rfl

theorem piecesSize_append (xs ys : List Piece) :
    piecesSize (xs ++ ys) = piecesSize xs + piecesSize ys := by
  induction xs with
  | nil => simp
  | cons x xs ih => simp [ih, Nat.add_assoc]

/-- One more piece. -/
theorem describes_append {text : Mem} {p : ℕ} {xs ys : List Piece} :
    Describes text p (xs ++ ys) ↔ Describes text p xs ∧ Describes text (p + piecesSize xs) ys := by
  induction xs generalizing p with
  | nil => simp [Describes]
  | cons x xs ih => simp [Describes, ih, and_assoc, Nat.add_assoc]

/-! ## Layouts -/

/-- How items are laid out in memory: `Found m s x` says that the item `x` is found at `s`,
`next` where the one behind it is, and `Same s m m'` that the memories are the same in
all that stands before `s`. -/
structure Layout (S α : Type) where
  Valid : S → Prop
  Found : Mem → S → α → Prop
  next : S → α → S
  Same : S → Mem → Mem → Prop
  valid_next : ∀ s x, Valid s → Valid (next s x)
  same_of_next : ∀ s x m m', Valid s → Same (next s x) m m' → Same s m m'
  found_congr : ∀ s x m m', Valid s → Same (next s x) m m' → Found m s x → Found m' s x

namespace Layout

variable {S α : Type} (L : Layout S α) {m m' : Mem} {s : S} {xs ys : List α} {x : α}

/-- The items are found one behind the other. -/
def Holds (m : Mem) : S → List α → Prop
  | _, [] => True
  | s, x :: xs => L.Found m s x ∧ Holds m (L.next s x) xs

/-- Where the items end. -/
def after (s : S) (xs : List α) : S := xs.foldl L.next s

@[simp] theorem after_nil (s : S) : L.after s [] = s := rfl

@[simp] theorem after_cons (s : S) (x : α) (xs : List α) :
    L.after s (x :: xs) = L.after (L.next s x) xs := rfl

theorem after_append (s : S) (xs ys : List α) : L.after s (xs ++ ys) = L.after (L.after s xs) ys :=
  List.foldl_append

theorem valid_after (hs : L.Valid s) (xs : List α) : L.Valid (L.after s xs) := by
  induction xs generalizing s with
  | nil => exact hs
  | cons x xs ih => exact ih (L.valid_next s x hs)

theorem holds_append : L.Holds m s (xs ++ ys) ↔ L.Holds m s xs ∧ L.Holds m (L.after s xs) ys := by
  induction xs generalizing s with
  | nil => simp [Holds]
  | cons x xs ih => simp [Holds, ih, and_assoc]

/-- What is the same before the end of the items is the same before each of them. -/
theorem same_of_after (hs : L.Valid s) (h : L.Same (L.after s xs) m m') : L.Same s m m' := by
  induction xs generalizing s with
  | nil => exact h
  | cons x xs ih => exact L.same_of_next s x m m' hs (ih (L.valid_next s x hs) h)

/-- Nothing that is written behind the items disturbs them. -/
theorem Holds.congr (hs : L.Valid s) (h : L.Holds m s xs) (hsame : L.Same (L.after s xs) m m') :
    L.Holds m' s xs := by
  induction xs generalizing s with
  | nil => trivial
  | cons x xs ih =>
    have hvalid := L.valid_next s x hs
    exact ⟨L.found_congr s x m m' hs (L.same_of_after hvalid hsame) h.1, ih hvalid h.2 hsame⟩

/-- One more item, written behind the others. -/
theorem Holds.snoc (hs : L.Valid s) (h : L.Holds m s xs) (hsame : L.Same (L.after s xs) m m')
    (hx : L.Found m' (L.after s xs) x) : L.Holds m' s (xs ++ [x]) :=
  L.holds_append.mpr ⟨h.congr L hs hsame, hx, trivial⟩

end Layout

end Imperative
