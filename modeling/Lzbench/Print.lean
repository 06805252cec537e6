import Lzbench.Codec
import Lzbench.Lib.Rounding
import Mathlib.Data.List.Sort

/-!
# Statistics and result rows

`print_stats` sorts the two sample vectors, takes the statistic that was asked for
from each, records a row and prints it.  The outcome of the verification is not a
column: a failed run is recorded with decompression time zero, and the printers tell
an error by a zero in what they print.

Printed text is kept as the list of the `printf` calls, each with its format and its
arguments.

## Main definitions

* `bestTime` — the statistic that `timetype` selects.
* `statRow` — the row that `print_stats` records.
* `printSpeed`, `printTime`, `printRow` — the printers.
-/

namespace Lzbench

open Imperative

/-! ## Statistics -/

/-- `std::sort`. -/
def sortSamples (samples : List ℕ) : List ℕ := samples.insertionSort (· ≤ ·)

/-- `std::accumulate` in 64 bits. -/
def accumulate (samples : List ℕ) : ℕ := samples.foldl addSize 0

/-- `best_ctime` and `best_dtime`, of a sorted vector. -/
def bestTime (timetype : TimeType) (time : List ℕ) : ℕ :=
  match timetype with
  | .average => if time.isEmpty then 0 else accumulate time / time.length
  | .median =>
    if time.isEmpty then 0
    else addSize (time.getD ((time.length - 1) / 2) 0) (time.getD (time.length / 2) 0) / 2
  | .fastest => if time.isEmpty then 0 else time.getD 0 0
  | .other _ => if time.isEmpty then 0 else time.getD 0 0

/-! ## `printf` -/

/-- An argument of `printf`.  A number is absent where its conversion is undefined. -/
inductive PrintArg
  | str (s : Text)
  | num (n : Option ℤ)
  | float (x : FloatVal)
  deriving DecidableEq

/-- One `printf` call. -/
structure Printf where
  fmt : String
  args : List PrintArg
  deriving DecidableEq

namespace Printf

/-- The two spellings of the error marker, with and without a table's frame. -/
def isError (p : Printf) : Bool :=
  p.fmt == "      ERROR" || p.fmt == "|      ERROR "

@[simp] theorem isError_mk (fmt : String) (args : List PrintArg) :
    (Printf.mk fmt args).isError = (fmt == "      ERROR" || fmt == "|      ERROR ") := rfl

end Printf

/-- `(unsigned long long)` of a column. -/
def ull (n : ℕ) : PrintArg := .num (some n)

/-- The bits of a `double` and of a `float`. -/
def doubleBits : ℕ := 53
def floatBits : ℕ := 24

/-- A `float` assigned from the quotient of two `double`s, the numerator a product of
a column with a constant. -/
def columnQuotient (col : ℕ) (factor : ℚ) (divisor : ℕ) : FloatVal :=
  (FloatVal.div doubleBits (roundBits doubleBits (roundBits doubleBits col * factor))
    (roundBits doubleBits divisor)).round floatBits

/-- `(int)x`, undefined beyond the range of `int`. -/
def intOfFloat (x : FloatVal) : PrintArg := .num ((x.toNat? (2 ^ 31)).map (↑))

/-- A speed cell: two decimals below ten, none from there on. -/
def printSpeedCell (fmtFloat fmtInt : String) (x : FloatVal) : Printf :=
  if x.lt 10 then ⟨fmtFloat, [.float x]⟩ else ⟨fmtInt, [intOfFloat x]⟩

/-- `print_speed`. -/
def printSpeed (textformat : TextFormat) (row : StringTable) : List Printf :=
  let cspeed := columnQuotient row.col5_origsize 1000 row.col2_ctime
  let dspeed := if row.col3_dtime = 0 then FloatVal.finite 0
    else columnQuotient row.col5_origsize 1000 row.col3_dtime
  let ratio := columnQuotient row.col4_comprsize 100 row.col5_origsize
  match textformat with
  | .csv =>
    [⟨"%s,%.2f,%.2f,%llu,%llu,%.2f,%s\n", [.str row.col1_algname, .float cspeed, .float dspeed,
      ull row.col5_origsize, ull row.col4_comprsize, .float ratio, .str row.col6_filename]⟩]
  | .turbobench =>
    [⟨"%12llu %6.1f%9.2f%9.2f  %22s %s\n", [ull row.col4_comprsize, .float ratio,
      .float cspeed, .float dspeed, .str row.col1_algname, .str row.col6_filename]⟩]
  | .text | .textFull =>
    [⟨"%-23s", [.str row.col1_algname]⟩,
      printSpeedCell "%6.2f MB/s" "%6d MB/s" cspeed,
      if dspeed.isZero then ⟨"      ERROR", []⟩
      else printSpeedCell "%6.2f MB/s" "%6d MB/s" dspeed,
      if textformat = .textFull then
        ⟨"%12llu %12llu %6.2f %s\n", [ull row.col5_origsize, ull row.col4_comprsize,
          .float ratio, .str row.col6_filename]⟩
      else
        ⟨"%12llu %6.2f %s\n", [ull row.col4_comprsize, .float ratio, .str row.col6_filename]⟩]
  | .markdown =>
    [⟨"| %-23s ", [.str row.col1_algname]⟩,
      printSpeedCell "|%6.2f MB/s " "|%6d MB/s " cspeed,
      if dspeed.isZero then ⟨"|      ERROR ", []⟩
      else printSpeedCell "|%6.2f MB/s " "|%6d MB/s " dspeed,
      ⟨"|%12llu |%6.2f | %-s|\n", [ull row.col4_comprsize, .float ratio,
        .str row.col6_filename]⟩]
  | .markdown2 =>
    let ratio := columnQuotient row.col5_origsize 1 row.col4_comprsize
    [⟨"| %-23s |%6.3f ", [.str row.col1_algname, .float ratio]⟩,
      printSpeedCell "|%6.2f MB/s " "|%6d MB/s " cspeed,
      if dspeed.isZero then ⟨"|      ERROR ", []⟩
      else printSpeedCell "|%6.2f MB/s " "|%6d MB/s " dspeed,
      ⟨"|\n", []⟩]
  | .other _ => []

/-- `print_time`. -/
def printTime (textformat : TextFormat) (row : StringTable) : List Printf :=
  let ratio := columnQuotient row.col4_comprsize 100 row.col5_origsize
  let ctime := row.col2_ctime / 1000
  let dtime := row.col3_dtime / 1000
  match textformat with
  | .csv =>
    [⟨"%s,%llu,%llu,%llu,%llu,%.2f,%s\n", [.str row.col1_algname, ull ctime, ull dtime,
      ull row.col5_origsize, ull row.col4_comprsize, .float ratio, .str row.col6_filename]⟩]
  | .turbobench =>
    [⟨"%12llu %6.1f%9llu%9llu  %22s %s\n", [ull row.col4_comprsize, .float ratio, ull ctime,
      ull dtime, .str row.col1_algname, .str row.col6_filename]⟩]
  | .text | .textFull =>
    [⟨"%-23s", [.str row.col1_algname]⟩,
      ⟨"%8llu us", [ull ctime]⟩,
      if dtime = 0 then ⟨"      ERROR", []⟩ else ⟨"%8llu us", [ull dtime]⟩,
      if textformat = .textFull then
        ⟨"%12llu %12llu %6.2f %s\n", [ull row.col5_origsize, ull row.col4_comprsize,
          .float ratio, .str row.col6_filename]⟩
      else
        ⟨"%12llu %6.2f %s\n", [ull row.col4_comprsize, .float ratio, .str row.col6_filename]⟩]
  | .markdown | .markdown2 =>
    [⟨"| %-23s ", [.str row.col1_algname]⟩,
      ⟨"|%8llu us ", [ull ctime]⟩,
      if dtime = 0 then ⟨"|      ERROR ", []⟩ else ⟨"|%8llu us ", [ull dtime]⟩,
      ⟨"|%12llu |%6.2f | %-s|\n", [ull row.col4_comprsize, .float ratio,
        .str row.col6_filename]⟩]
  | .other _ => []

/-- The printer that `show_speed` selects. -/
def printRow (params : LzbenchParams) (row : StringTable) : List Printf :=
  if params.showSpeed then printSpeed params.textformat row
  else printTime params.textformat row

/-- The printers depend on two settings. -/
theorem printRow_congr {p q : LzbenchParams} (htext : p.textformat = q.textformat)
    (hspeed : p.showSpeed = q.showSpeed) : printRow p = printRow q := by
  funext row
  rw [printRow, printRow, htext, hspeed]

/-! ## `print_stats` -/

/-- `format`, whose buffer holds 1023 bytes. -/
def format (text : Text) : Text := text.take 1023

/-- `col1_algname`. -/
def algName {σ : Type} (desc : CompressorDesc σ) (level : ℤ) : Text :=
  if desc.firstLevel = 0 ∧ desc.lastLevel = 0 then format (utf8 s!"{desc.name} {desc.version}")
  else format (utf8 s!"{desc.name} {desc.version} -{level}")

/-- The row that `print_stats` records. -/
def statRow {σ : Type} (params : LzbenchParams) (desc : CompressorDesc σ) (level : ℤ)
    (ctime dtime : List ℕ) (insize : ℕ) (complen : ℤ) (decompError : Bool) : StringTable where
  col1_algname := algName desc level
  col2_ctime := bestTime params.timetype (sortSamples ctime)
  col3_dtime := if decompError then 0 else bestTime params.timetype (sortSamples dtime)
  col4_comprsize := toSize complen
  col5_origsize := insize
  col6_filename := params.inFilename

/-! ## When the error marker is printed -/

theorem printSpeedCell_isError (x : FloatVal) :
    (printSpeedCell "%6.2f MB/s" "%6d MB/s" x).isError = false ∧
      (printSpeedCell "|%6.2f MB/s " "|%6d MB/s " x).isError = false := by
  simp only [printSpeedCell]
  split <;> exact ⟨rfl, rfl⟩

/-- The speed computed from a nonzero time is zero only for an empty input. -/
theorem columnQuotient_isZero {col divisor : ℕ} (hdiv : 0 < divisor) :
    (columnQuotient col 1000 divisor).isZero = true ↔ col = 0 := by
  have hpos : (0 : ℚ) < roundBits doubleBits divisor :=
    roundBits_pos (by decide) (by exact_mod_cast hdiv)
  have hcol : (0 : ℚ) ≤ roundBits doubleBits col * 1000 :=
    mul_nonneg (roundBits_nonneg _ _) (by norm_num)
  rw [columnQuotient, FloatVal.isZero_div (by decide) (by decide) (roundBits_nonneg _ _) hpos,
    roundBits_eq_zero (by decide) hcol, mul_eq_zero, or_iff_left (by norm_num),
    roundBits_eq_zero (by decide) (by positivity), Nat.cast_eq_zero]

/-- The four text formats. -/
def TextFormat.IsText (t : TextFormat) : Prop :=
  t = .text ∨ t = .textFull ∨ t = .markdown ∨ t = .markdown2

instance (t : TextFormat) : Decidable t.IsText := by
  simp only [TextFormat.IsText]
  infer_instance

/-- In the speed columns a zero time is an error, and so is an empty input. -/
theorem printSpeed_isError {t : TextFormat} (ht : t.IsText) (row : StringTable) :
    (printSpeed t row).any Printf.isError = true ↔
      row.col3_dtime = 0 ∨ row.col5_origsize = 0 := by
  have hzero : (if row.col3_dtime = 0 then FloatVal.finite 0
      else columnQuotient row.col5_origsize 1000 row.col3_dtime).isZero = true ↔
        row.col3_dtime = 0 ∨ row.col5_origsize = 0 := by
    by_cases h0 : row.col3_dtime = 0
    · simp [h0, FloatVal.isZero]
    · rw [if_neg h0, columnQuotient_isZero (by omega), or_iff_right h0]
  rw [← hzero]
  simp only [printSpeed]
  generalize (if row.col3_dtime = 0 then FloatVal.finite 0
    else columnQuotient row.col5_origsize 1000 row.col3_dtime) = dspeed
  -- the cells of both speeds are no marker, so the marker is the one of this branch
  have hcell := printSpeedCell_isError
  cases dspeed.isZero <;> rcases ht with rfl | rfl | rfl | rfl <;>
    simp [(hcell _).1, (hcell _).2]

/-- In the time columns a time that rounds to zero microseconds is an error. -/
theorem printTime_isError {t : TextFormat} (ht : t.IsText) (row : StringTable) :
    (printTime t row).any Printf.isError = true ↔ row.col3_dtime < 1000 := by
  have hzero : row.col3_dtime / 1000 = 0 ↔ row.col3_dtime < 1000 := by omega
  rw [← hzero]
  rcases ht with rfl | rfl | rfl | rfl <;>
    by_cases h0 : row.col3_dtime / 1000 = 0 <;> simp [printTime, h0]

end Lzbench
