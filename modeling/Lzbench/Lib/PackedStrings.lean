import Mathlib.Data.List.Forall2
import Lzbench.Lib.Memory

/-!
# Zero-terminated strings in memory

Strings are packed into a buffer one behind the other, each with its terminator, and a table
of offsets is made later by walking over them.  `strncpy` with the room that is left pads up to
the end of the buffer, so what comes behind the last string is zero, but a buffer that has
grown since holds anything there.

## Main definitions

* `CString` — bytes without a terminator among them.
* `strncpy` — copying a string, padded.
* `packed` — the bytes of strings one behind the other.
* `walk` — the offsets of a number of strings, and where the walk ends.
* `walk_packed` — the walk finds the strings that were packed.
-/

namespace Imperative

/-- A string: the bytes before its terminator. -/
structure CString where
  bytes : List UInt8
  noNul : 0 ∉ bytes
deriving DecidableEq

namespace CString

def length (s : CString) : ℕ := s.bytes.length

/-- The string with its terminator. -/
def terminated (s : CString) : List UInt8 := s.bytes ++ [0]

theorem length_terminated (s : CString) : s.terminated.length = s.length + 1 := by
  simp [terminated, length]

theorem count_terminated (s : CString) : s.terminated.count 0 = 1 := by
  simp [terminated, List.count_eq_zero_of_not_mem s.noNul]

/-- The string that joins two others with a separator. -/
def join (sep : UInt8) (hsep : sep ≠ 0) (s t : CString) : CString where
  bytes := s.bytes ++ sep :: t.bytes
  noNul := by
    simp only [List.mem_append, List.mem_cons, not_or]
    exact ⟨s.noNul, hsep.symm, t.noNul⟩

end CString

/-- `strncpy(m + pos, s, n)`. -/
def strncpy (m : Mem) (pos : ℕ) (s : CString) (n : ℕ) : Mem :=
  ((Patch.ofList ((s.bytes ++ List.replicate (n - s.length) 0).take n)).shift pos).onto m

/-- The strings one behind the other. -/
def packed (strings : List CString) : List UInt8 := strings.flatMap CString.terminated

/-- `strlen(m + pos)`, where the string ends among the next `n` bytes. -/
def strlenWithin (m : Mem) (pos n : ℕ) : Option ℕ :=
  let len := ((m.bytes pos n).takeWhile (· ≠ 0)).length
  if len < n then some len else none

/-- The offsets of `count` strings from `pos` on, in a buffer of `size` bytes, and the offset
behind them. -/
def walk (m : Mem) (size : ℕ) : ℕ → ℕ → Option (List ℕ × ℕ)
  | 0, pos => some ([], pos)
  | count + 1, pos =>
    (strlenWithin m pos (size - pos)).bind fun len =>
      (walk m size count (pos + (len + 1))).map fun r => (pos :: r.1, r.2)

/-- The string `s` is what the buffer holds at `off`. -/
def StringAt (m : Mem) (size off : ℕ) (s : CString) : Prop :=
  m.bytes off (s.length + 1) = s.terminated ∧ off + s.length + 1 ≤ size

@[simp] theorem packed_nil : packed [] = [] := rfl

@[simp] theorem packed_cons (s : CString) (strings : List CString) :
    packed (s :: strings) = s.terminated ++ packed strings := by
  simp [packed]

@[simp] theorem packed_append (l l' : List CString) : packed (l ++ l') = packed l ++ packed l' := by
  simp [packed]

/-- Every string has one terminator. -/
theorem count_packed (strings : List CString) : (packed strings).count 0 = strings.length := by
  induction strings with
  | nil => rfl
  | cons s strings ih =>
    rw [packed_cons, List.count_append, s.count_terminated, ih, List.length_cons, Nat.add_comm]

/-- Copying a string with room for its terminator. -/
theorem bytes_strncpy {m : Mem} {pos n : ℕ} {s : CString} (h : s.length < n) :
    (strncpy m pos s n).bytes pos (s.length + 1) = s.terminated := by
  obtain ⟨k, rfl⟩ : ∃ k, n = s.length + (k + 1) := ⟨n - s.length - 1, by omega⟩
  have hpad : (s.bytes ++ List.replicate (s.length + (k + 1) - s.length) 0).take
      (s.length + (k + 1)) = s.terminated ++ List.replicate k 0 := by
    rw [Nat.add_sub_cancel_left, List.take_of_length_le (by simp [CString.length]),
      List.replicate_succ, CString.terminated, List.append_assoc]
    rfl
  rw [strncpy, hpad, Patch.Covers.bytes_onto_shift]
  · apply List.ext_getElem
    · simp [s.length_terminated]
    · intro i hi _
      rw [Patch.length_bytes] at hi
      have hlen : i < s.terminated.length := by
        rw [s.length_terminated]
        exact hi
      simp [Patch.bytes, Patch.ofList, List.getElem?_append_left hlen, hlen]
  · intro p hp
    have hlen : p < s.terminated.length := by
      rw [s.length_terminated]
      exact hp
    simp [Patch.ofList, List.getElem?_append_left hlen, hlen]

/-- Copying a string changes nothing before it. -/
theorem agree_strncpy (m : Mem) (pos : ℕ) (s : CString) (n : ℕ) :
    Mem.Agree m (strncpy m pos s n) 0 pos :=
  Patch.agree_onto_shift _ m pos

theorem strlenWithin_eq {m : Mem} {pos n : ℕ} {s : CString} (hn : s.length < n)
    (h : m.bytes pos (s.length + 1) = s.terminated) : strlenWithin m pos n = some s.length := by
  obtain ⟨k, rfl⟩ : ∃ k, n = s.length + 1 + k := ⟨n - (s.length + 1), by omega⟩
  have hstop : ((m.bytes pos (s.length + 1 + k)).takeWhile (· ≠ 0)) = s.bytes := by
    rw [Mem.bytes_add, h, CString.terminated, List.append_assoc, List.takeWhile_append_of_pos]
    · simp
    · intro b hb
      have hne : b ≠ 0 := fun hzero => s.noNul (hzero ▸ hb)
      simpa using hne
  simp only [strlenWithin, hstop]
  exact if_pos hn

/-- The walk finds the strings that were packed. -/
theorem walk_packed {m : Mem} {size : ℕ} (strings : List CString) {pos : ℕ}
    (h : m.bytes pos (packed strings).length = packed strings)
    (hroom : pos + (packed strings).length ≤ size) :
    ∃ table, walk m size strings.length pos = some (table, pos + (packed strings).length) ∧
      List.Forall₂ (StringAt m size) table strings := by
  induction strings generalizing pos with
  | nil => exact ⟨[], rfl, List.Forall₂.nil⟩
  | cons s strings ih =>
    rw [packed_cons, List.length_append, s.length_terminated, Mem.bytes_add] at h
    rw [packed_cons, List.length_append, s.length_terminated] at hroom ⊢
    obtain ⟨hfirst, hrest⟩ := List.append_inj h (by simp [s.length_terminated])
    obtain ⟨table, hwalk, hat⟩ := ih hrest (by omega)
    refine ⟨pos :: table, ?_, List.Forall₂.cons ⟨hfirst, by omega⟩ hat⟩
    rw [List.length_cons, walk, strlenWithin_eq (by omega) hfirst]
    simp only [Option.bind_some, hwalk, Option.map_some, Nat.add_assoc]

end Imperative
