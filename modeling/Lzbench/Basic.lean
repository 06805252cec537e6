import Mathlib.Tactic.NormNum
import Lzbench.Lib.CInt

/-!
# Parameters, rows and bounds of the benchmark

The data of `lzbench.h`: the two size constants, the parameter block that the
option parser fills in, and the rows of the result table.

`textformat` and `timetype` are enumerations that the option parser fills by
casting any number, so each has an `other` value for what the cast lets through.

## Main definitions

* `Text` — a string as its bytes.
* `getCompressBound` — `GET_COMPRESS_BOUND`, in wrapping 64-bit arithmetic.
* `LzbenchParams`, `StringTable` — the parameter block and one result row.
* `defaultParams` — the parameters before any option.
* `Stop` — the ways a run ends before the program does.
-/

namespace Lzbench

open Imperative

/-- `PAD_SIZE`. -/
def padSize : ℕ := 16 * 1024

/-- `GET_COMPRESS_BOUND`; the sum wraps at 64 bits. -/
def getCompressBound (insize : ℕ) : ℕ := (insize + insize / 6 + padSize) % 2 ^ 64

/-- The bound of `n` bytes is computed without wrapping. -/
def BoundFits (n : ℕ) : Prop := n + n / 6 + padSize < 2 ^ 64

instance (n : ℕ) : Decidable (BoundFits n) :=
  inferInstanceAs (Decidable (n + n / 6 + padSize < 2 ^ 64))

theorem getCompressBound_of_fits {n : ℕ} (h : BoundFits n) :
    getCompressBound n = n + n / 6 + padSize :=
  Nat.mod_eq_of_lt h

theorem BoundFits.mono {m n : ℕ} (h : BoundFits n) (hm : m ≤ n) : BoundFits m := by
  simp only [BoundFits] at *
  omega

/-- An object that exists in memory is far below the wrap of its bound. -/
theorem boundFits_of_le_ptrdiffMax {n : ℕ} (h : n ≤ ptrdiffMax) : BoundFits n := by
  simp only [BoundFits, padSize]
  simp only [ptrdiffMax] at h
  omega

theorem BoundFits.lt {n : ℕ} (h : BoundFits n) : n < 2 ^ 64 := by
  simp only [BoundFits] at h
  omega

theorem getCompressBound_lt (n : ℕ) : getCompressBound n < 2 ^ 64 :=
  Nat.mod_lt _ (by norm_num)

/-- The bound of a whole leaves room for the bound of one part after others, the floors
losing on the parts only. -/
theorem getCompressBound_add_le {m n total : ℕ} (h : BoundFits total) (hle : m + n ≤ total) :
    m + getCompressBound n ≤ getCompressBound total := by
  rw [getCompressBound_of_fits h, getCompressBound_of_fits (h.mono (by omega))]
  omega

theorem le_getCompressBound {n : ℕ} (h : BoundFits n) : n + padSize ≤ getCompressBound n := by
  rw [getCompressBound_of_fits h]
  omega

/-- A C string or a `std::string`: its bytes. -/
abbrev Text := List UInt8

/-- The bytes of a literal, or of an argument of the program. -/
def utf8 (s : String) : Text := s.toByteArray.data.toList

theorem utf8_ofList (l : List Char) : utf8 (String.ofList l) = l.flatMap String.utf8EncodeChar := by
  simp [utf8, List.utf8Encode]

/-- `textformat_e`. -/
inductive TextFormat
  | markdown
  | text
  | textFull
  | csv
  | turbobench
  | markdown2
  /-- A number outside the enumerators, as `-o` casts it. -/
  | other (n : ℕ)
  deriving DecidableEq, Repr, Inhabited

/-- `timetype_e`. -/
inductive TimeType
  | fastest
  | average
  | median
  /-- A number outside the enumerators, as `-p` casts it. -/
  | other (n : ℕ)
  deriving DecidableEq, Repr, Inhabited

/-- `string_table_t`, one row of the result table. -/
structure StringTable where
  col1_algname : Text
  col2_ctime : ℕ
  col3_dtime : ℕ
  col4_comprsize : ℕ
  col5_origsize : ℕ
  col6_filename : Text
  deriving DecidableEq, Repr, Inhabited

/-- `lzbench_params_t`. -/
structure LzbenchParams where
  showSpeed : Bool
  compressOnly : Bool
  timetype : TimeType
  textformat : TextFormat
  chunkSize : ℕ
  cIters : ℕ
  dIters : ℕ
  cspeed : ℕ
  verbose : ℕ
  cmintime : ℕ
  dmintime : ℕ
  cloopTime : ℕ
  dloopTime : ℕ
  memLimit : ℕ
  randomRead : Bool
  results : List StringTable
  inFilename : Text
  deriving DecidableEq, Repr, Inhabited

/-- `DEFAULT_LOOP_TIME`, in nanoseconds. -/
def defaultLoopTime : ℕ := 100 * 1000000

/-- The parameters with which `main` starts to read its options. -/
def defaultParams : LzbenchParams where
  showSpeed := true
  compressOnly := false
  timetype := .fastest
  textformat := .text
  chunkSize := 2 ^ 31 - 2 ^ 31 / 6
  cIters := 1
  dIters := 1
  cspeed := 0
  verbose := 2
  cmintime := 10 * defaultLoopTime / 1000000
  dmintime := 20 * defaultLoopTime / 1000000
  cloopTime := defaultLoopTime
  dloopTime := defaultLoopTime
  memLimit := 0
  randomRead := false
  results := []
  inFilename := []

/-- How a run ends before `main` returns. -/
inductive Stop
  /-- A loop that has not ended within the fuel given. -/
  | hang
  /-- `std::length_error`, thrown by a `resize` beyond `max_size()`. -/
  | lengthError
  /-- `exit(1)`. -/
  | exitFailure
  /-- An access outside the allocated buffers, or a division by zero. -/
  | undefined
  deriving DecidableEq, Repr, Inhabited

end Lzbench
