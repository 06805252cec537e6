import Mathlib.Data.Nat.Notation
import Mathlib.Data.List.Basic
import Mathlib.Data.List.GetD
import Mathlib.Logic.Basic
import Lzbench.Lib.CInt

/-!
# Byte memories, copies and partial overwrites

A memory is a total map from offsets to bytes; a buffer is the part of one below
its size, and staying inside it is a statement about which offsets a call changed.
A `Patch` is what a call wrote: the bytes it stored, relative to its pointer, and
nothing where it stored nothing.  Patches compose, and applying one twice changes
nothing, which is what makes repeating a deterministic call harmless.

## Main definitions

* `Object` — a memory with the size of the object it is the contents of.
* `Mem.copy`, `Mem.fill` — `memcpy` and `memset`.
* `Mem.bytes m lo n` — the `n` bytes at `lo`.
* `Mem.Agree lo n` — two memories hold the same `n` bytes at `lo`.
* `Mem.FirstDifference` — the first offset at which two memories differ.
* `Patch.onto`, `Patch.shift`, `Patch.overlay` — overwriting, moving, composing.
-/

namespace Imperative

/-- A total map from offsets to bytes. -/
abbrev Mem := ℕ → UInt8

/-- An object in memory: its bytes, and its size, which fits a pointer difference. -/
structure Object where
  mem : Mem
  size : ℕ
  size_le : size ≤ ptrdiffMax

namespace Mem

/-- `memcpy(dst + d, src + s, n)`. -/
def copy (dst : Mem) (d : ℕ) (src : Mem) (s n : ℕ) : Mem :=
  fun p => if d ≤ p ∧ p < d + n then src (s + (p - d)) else dst p

/-- `memset(m + lo, v, n)`. -/
def fill (m : Mem) (lo : ℕ) (v : UInt8) (n : ℕ) : Mem :=
  fun p => if lo ≤ p ∧ p < lo + n then v else m p

/-- The `n` bytes at offset `lo`. -/
def bytes (m : Mem) (lo n : ℕ) : List UInt8 := (List.range n).map fun i => m (lo + i)

/-- The memory that starts with the bytes of a list and is zero after them. -/
def ofList (l : List UInt8) : Mem := fun p => l.getD p 0

/-- The `n` bytes of `m` at `lo` are those of `m'` at `lo'`. -/
def SameBytes (m : Mem) (lo : ℕ) (m' : Mem) (lo' n : ℕ) : Prop :=
  ∀ i < n, m (lo + i) = m' (lo' + i)

/-- The two memories hold the same `n` bytes at `lo`. -/
def Agree (m m' : Mem) (lo n : ℕ) : Prop := SameBytes m lo m' lo n

/-- The two memories differ at `p`, and at no offset before it. -/
structure FirstDifference (m m' : Mem) (p : ℕ) : Prop where
  agree : Agree m m' 0 p
  ne : m p ≠ m' p

/-- Only offsets in `[lo, lo + n)` may differ. -/
def WritesWithin (m m' : Mem) (lo n : ℕ) : Prop :=
  ∀ p, p < lo ∨ lo + n ≤ p → m' p = m p

/-- The first `n` bytes are all zero. -/
def Zeroed (m : Mem) (n : ℕ) : Prop := ∀ p < n, m p = 0

instance (m : Mem) (lo : ℕ) (m' : Mem) (lo' n : ℕ) : Decidable (SameBytes m lo m' lo' n) :=
  inferInstanceAs (Decidable (∀ i < n, m (lo + i) = m' (lo' + i)))

@[simp] theorem length_bytes (m : Mem) (lo n : ℕ) : (m.bytes lo n).length = n := by
  simp [bytes]

/-- Equality of byte lists is equality offset by offset. -/
theorem bytes_eq_bytes_iff {m m' : Mem} {lo lo' n : ℕ} :
    m.bytes lo n = m'.bytes lo' n ↔ SameBytes m lo m' lo' n := by
  simp [bytes, SameBytes]

@[simp] theorem bytes_ofList (l : List UInt8) : (ofList l).bytes 0 l.length = l := by
  apply List.ext_getElem (length_bytes _ _ _)
  intro i _ hi
  simp [bytes, ofList, hi]

/-- A block is its first part and the rest of it. -/
theorem bytes_add (m : Mem) (lo n k : ℕ) :
    m.bytes lo (n + k) = m.bytes lo n ++ m.bytes (lo + n) k := by
  simp [bytes, List.range_add, Nat.add_assoc]

/-- A block inside a block whose bytes are known. -/
theorem bytes_of_append {m : Mem} {lo n : ℕ} {a b c : List UInt8}
    (h : m.bytes lo n = a ++ b ++ c) : m.bytes (lo + a.length) b.length = b := by
  have hlen : n = a.length + b.length + c.length := by
    simpa [Nat.add_assoc] using congrArg List.length h
  rw [hlen, bytes_add, bytes_add] at h
  have hab := (List.append_inj h (by simp)).1
  exact (List.append_inj hab (by simp)).2

theorem Agree.symm {m m' : Mem} {lo n : ℕ} (h : Agree m m' lo n) : Agree m' m lo n :=
  fun i hi => (h i hi).symm

theorem Agree.trans {m m' m'' : Mem} {lo n : ℕ} (h : Agree m m' lo n)
    (h' : Agree m' m'' lo n) : Agree m m'' lo n :=
  fun i hi => (h i hi).trans (h' i hi)

/-- Agreement on a block gives agreement on every block inside it. -/
theorem Agree.sub {m m' : Mem} {lo n lo' n' : ℕ} (h : Agree m m' lo n)
    (hlo : lo ≤ lo') (hn : lo' + n' ≤ lo + n) : Agree m m' lo' n' := by
  intro i hi
  have hp := h (lo' + i - lo) (by omega)
  rwa [show lo + (lo' + i - lo) = lo' + i by omega] at hp

theorem FirstDifference.unique {m m' : Mem} {p q : ℕ} (hp : FirstDifference m m' p)
    (hq : FirstDifference m m' q) : p = q := by
  rcases Nat.lt_trichotomy p q with hlt | heq | hlt
  · have hsame := hq.agree p hlt
    rw [Nat.zero_add] at hsame
    exact (hp.ne hsame).elim
  · exact heq
  · have hsame := hp.agree q hlt
    rw [Nat.zero_add] at hsame
    exact (hq.ne hsame).elim

/-- Memories that are not the same in a block at the beginning differ first inside of it. -/
theorem exists_firstDifference {m m' : Mem} {n : ℕ} (h : ¬ SameBytes m 0 m' 0 n) :
    ∃ p < n, FirstDifference m m' p := by
  induction n with
  | zero => exact (h fun i hi => (Nat.not_lt_zero i hi).elim).elim
  | succ n ih =>
    by_cases hsame : SameBytes m 0 m' 0 n
    · refine ⟨n, Nat.lt_succ_self n, hsame, fun heq => h ?_⟩
      intro i hi
      cases Nat.lt_succ_iff_lt_or_eq.mp hi with
      | inl hlt => exact hsame i hlt
      | inr hlast =>
        rw [hlast, Nat.zero_add]
        exact heq
    · obtain ⟨p, hp, hfirst⟩ := ih hsame
      exact ⟨p, Nat.lt_succ_of_lt hp, hfirst⟩

/-- A write at or after `lo` leaves everything before it alone. -/
theorem WritesWithin.agree_before {m m' : Mem} {lo n a k : ℕ} (h : WritesWithin m m' lo n)
    (hk : a + k ≤ lo) : Agree m m' a k :=
  fun i hi => (h (a + i) (Or.inl (by omega))).symm

theorem WritesWithin.mono {m m' : Mem} {lo n lo' n' : ℕ} (h : WritesWithin m m' lo n)
    (hlo : lo' ≤ lo) (hn : lo + n ≤ lo' + n') : WritesWithin m m' lo' n' :=
  fun p hp => h p (by omega)

theorem WritesWithin.trans {m m' m'' : Mem} {lo n : ℕ} (h : WritesWithin m m' lo n)
    (h' : WritesWithin m' m'' lo n) : WritesWithin m m'' lo n :=
  fun p hp => (h' p hp).trans (h p hp)

theorem writesWithin_refl (m : Mem) (lo n : ℕ) : WritesWithin m m lo n := fun _ _ => rfl

theorem writesWithin_copy (dst : Mem) (d : ℕ) (src : Mem) (s n : ℕ) :
    WritesWithin dst (dst.copy d src s n) d n := by
  intro p hp
  rw [copy, if_neg (by omega)]

theorem sameBytes_copy (dst : Mem) (d : ℕ) (src : Mem) (s n : ℕ) :
    SameBytes (dst.copy d src s n) d src s n := by
  intro i hi
  rw [copy, if_pos (by omega), Nat.add_sub_cancel_left]

theorem zeroed_fill (m : Mem) (n : ℕ) : Zeroed (m.fill 0 0 n) n := by
  intro p hp
  rw [fill, if_pos (by omega)]

theorem Zeroed.mono {m : Mem} {n n' : ℕ} (h : Zeroed m n) (hn : n' ≤ n) : Zeroed m n' :=
  fun p hp => h p (by omega)

end Mem

/-- What a call wrote, relative to its pointer; `none` where it wrote nothing. -/
abbrev Patch := ℕ → Option UInt8

namespace Patch

/-- Overwrite a memory with a patch. -/
def onto (w : Patch) (m : Mem) : Mem := fun p => (w p).getD (m p)

/-- Move a patch to the pointer `off`. -/
def shift (w : Patch) (off : ℕ) : Patch := fun p => if off ≤ p then w (p - off) else none

/-- The patch of writing `w` and then `w'`. -/
def overlay (w' w : Patch) : Patch := fun p => (w' p).or (w p)

/-- The patch that stores a list of bytes. -/
def ofList (l : List UInt8) : Patch := fun p => l[p]?

/-- Every offset below `n` is written. -/
def Covers (w : Patch) (n : ℕ) : Prop := ∀ p < n, (w p).isSome

/-- No offset from `n` on is written. -/
def Within (w : Patch) (n : ℕ) : Prop := ∀ p, n ≤ p → w p = none

/-- The bytes written at the first `n` offsets. -/
def bytes (w : Patch) (n : ℕ) : List UInt8 := (List.range n).map fun i => (w i).getD 0

@[simp] theorem length_bytes (w : Patch) (n : ℕ) : (w.bytes n).length = n := by
  simp [bytes]

/-- What a patch wrote can be read back where it was put. -/
theorem Covers.bytes_onto_shift {w : Patch} {n : ℕ} (h : w.Covers n) (m : Mem) (off : ℕ) :
    ((w.shift off).onto m).bytes off n = w.bytes n := by
  apply List.map_congr_left
  intro i hi
  obtain ⟨b, hb⟩ := Option.isSome_iff_exists.mp (h i (List.mem_range.mp hi))
  simp [onto, shift, hb]

/-- Copying is overwriting with the bytes copied. -/
theorem copy_eq_onto (dst : Mem) (d : ℕ) (src : Mem) (s n : ℕ) :
    dst.copy d src s n = ((ofList (src.bytes s n)).shift d).onto dst := by
  ext p
  by_cases hlo : d ≤ p
  · by_cases hhi : p < d + n
    · have hin : p - d < n := by omega
      simp [Mem.copy, onto, shift, ofList, Mem.bytes, hlo, hhi, hin]
    · have hout : ¬ p - d < n := by omega
      simp [Mem.copy, onto, shift, ofList, Mem.bytes, hlo, hhi, hout]
  · simp [Mem.copy, onto, shift, hlo]

theorem overlay_assoc (w'' w' w : Patch) :
    (w''.overlay w').overlay w = w''.overlay (w'.overlay w) := by
  ext p
  simp [overlay, Option.or_assoc]

@[simp] theorem overlay_none (w : Patch) : w.overlay (fun _ => none) = w := by
  ext p
  simp [overlay]

@[simp] theorem none_overlay (w : Patch) : overlay (fun _ => none) w = w := by
  ext p
  simp [overlay]

theorem onto_overlay (w' w : Patch) (m : Mem) : (overlay w' w).onto m = w'.onto (w.onto m) := by
  ext p
  cases hw : w' p <;> simp [onto, overlay, hw]

/-- Writing the same bytes again changes nothing. -/
theorem onto_onto (w : Patch) (m : Mem) : w.onto (w.onto m) = w.onto m := by
  ext p
  cases hw : w p <;> simp [onto, hw]

/-- Memories that agree at an offset still agree there under a common patch. -/
theorem onto_congr (w : Patch) {m m' : Mem} {p : ℕ} (h : m p = m' p) :
    w.onto m p = w.onto m' p := by
  simp [onto, h]

/-- A moved patch leaves everything before it. -/
theorem agree_onto_shift (w : Patch) (m : Mem) (off : ℕ) :
    Mem.Agree m ((w.shift off).onto m) 0 off := by
  intro p hp
  simp [onto, shift, show ¬ off ≤ p by omega]

/-- Bytes appended to those at `lo` stand behind them. -/
theorem bytes_onto_append (m : Mem) (lo pos : ℕ) (l : List UInt8) :
    (((ofList l).shift (lo + pos)).onto m).bytes lo (pos + l.length) = m.bytes lo pos ++ l := by
  have hcopy : m.copy (lo + pos) (Mem.ofList l) 0 l.length =
      ((ofList l).shift (lo + pos)).onto m := by
    rw [copy_eq_onto, Mem.bytes_ofList]
  have hbefore : Mem.Agree m (m.copy (lo + pos) (Mem.ofList l) 0 l.length) lo pos :=
    (Mem.writesWithin_copy m (lo + pos) (Mem.ofList l) 0 l.length).agree_before le_rfl
  have hnew := Mem.bytes_eq_bytes_iff.mpr
    (Mem.sameBytes_copy m (lo + pos) (Mem.ofList l) 0 l.length)
  rw [← hcopy, Mem.bytes_add, hnew, Mem.bytes_ofList]
  exact congrArg (· ++ l) (Mem.bytes_eq_bytes_iff.mpr hbefore.symm)

/-- Bytes appended to a buffer stand behind the others. -/
theorem bytes_onto_ofList (m : Mem) (pos : ℕ) (l : List UInt8) :
    (((ofList l).shift pos).onto m).bytes 0 (pos + l.length) = m.bytes 0 pos ++ l := by
  have hat := bytes_onto_append m 0 pos l
  rwa [Nat.zero_add] at hat

theorem writesWithin_onto_shift {w : Patch} {n : ℕ} (h : w.Within n) (m : Mem) (off : ℕ) :
    Mem.WritesWithin m ((w.shift off).onto m) off n := by
  intro p hp
  have hnone : w.shift off p = none := by
    simp only [shift]
    split
    · exact h _ (by omega)
    · rfl
  simp [onto, hnone]

end Patch

end Imperative
