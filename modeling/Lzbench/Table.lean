import Mathlib.Data.String.Basic
import Lzbench.Lib.StdSort
import Lzbench.Main
import Lzbench.Options

/-!
# The result table

`main` runs one of the two drivers and, with `-c`, sorts the rows that were recorded.  The
drivers print the header and run the baseline before anything else; the baseline runs with a
copy of the parameters, so its row is printed but is not among those that are sorted.

`std::sort` and the listing of directories are parameters.

## Main definitions

* `lessUsing`, `InOrder` — the comparisons, and the orders they stand for.
* `main`, `SortedTable` — the program, and what it prints in the end.
* `Tabulates` — what is printed and recorded after the baseline.
* `TableComplete`, `table_complete` — the table has the rows of the run but the baseline's.
-/

namespace Lzbench

open Imperative

variable {σ : Type}

/-! ## The columns -/

/-- `less_using_1st_column`; the bytes of a `std::string` are compared without a sign. -/
def lessUsing1stColumn (a b : StringTable) : Bool :=
  a.col1_algname.map UInt8.toNat < b.col1_algname.map UInt8.toNat

/-- `less_using_2nd_column`. -/
def lessUsing2ndColumn (a b : StringTable) : Bool := a.col2_ctime > b.col2_ctime

/-- `less_using_3rd_column`. -/
def lessUsing3rdColumn (a b : StringTable) : Bool := a.col3_dtime > b.col3_dtime

/-- `less_using_4th_column`. -/
def lessUsing4thColumn (a b : StringTable) : Bool := a.col4_comprsize < b.col4_comprsize

/-- `less_using_5th_column`. -/
def lessUsing5thColumn (a b : StringTable) : Bool := a.col5_origsize < b.col5_origsize

/-- The comparison that is chosen; a column that is not there stands for the first. -/
def lessUsing (sortCol : ℤ) : StringTable → StringTable → Bool :=
  match sortCol with
  | 2 => lessUsing2ndColumn
  | 3 => lessUsing3rdColumn
  | 4 => lessUsing4thColumn
  | 5 => lessUsing5thColumn
  | _ => lessUsing1stColumn

/-- The rows are in the order of the column: names and sizes ascend, times descend. -/
def InOrder (sortCol : ℤ) (a b : StringTable) : Prop :=
  match sortCol with
  | 2 => b.col2_ctime ≤ a.col2_ctime
  | 3 => b.col3_dtime ≤ a.col3_dtime
  | 4 => a.col4_comprsize ≤ b.col4_comprsize
  | 5 => a.col5_origsize ≤ b.col5_origsize
  | _ => a.col1_algname.map UInt8.toNat ≤ b.col1_algname.map UInt8.toNat

/-- Sorting by a column keeps the rows, and puts them in its order. -/
theorem sort_lessUsing (sort : StdSort StringTable) (sortCol : ℤ) (rows : List StringTable) :
    (sort.sort (lessUsing sortCol) rows).Perm rows ∧
      (sort.sort (lessUsing sortCol) rows).Pairwise (InOrder sortCol) := by
  have h1 : ∀ a b, lessUsing1stColumn a b = true ↔
      a.col1_algname.map UInt8.toNat < b.col1_algname.map UInt8.toNat := by
    simp [lessUsing1stColumn]
  have h2 : ∀ a b, lessUsing2ndColumn a b = true ↔
      OrderDual.toDual a.col2_ctime < OrderDual.toDual b.col2_ctime := by simp [lessUsing2ndColumn]
  have h3 : ∀ a b, lessUsing3rdColumn a b = true ↔
      OrderDual.toDual a.col3_dtime < OrderDual.toDual b.col3_dtime := by simp [lessUsing3rdColumn]
  simp only [lessUsing]
  split
  · exact sort.perm_and_le (fun row => OrderDual.toDual row.col2_ctime) h2 rows
  · exact sort.perm_and_le (fun row => OrderDual.toDual row.col3_dtime) h3 rows
  · exact sort.perm_and_le StringTable.col4_comprsize (by simp [lessUsing4thColumn]) rows
  · exact sort.perm_and_le StringTable.col5_origsize (by simp [lessUsing5thColumn]) rows
  · have horder : InOrder sortCol = fun a b =>
        a.col1_algname.map UInt8.toNat ≤ b.col1_algname.map UInt8.toNat := by
      funext a b
      simp [InOrder, *]
    rw [horder]
    exact sort.perm_and_le (fun row => row.col1_algname.map UInt8.toNat) h1 rows

/-! ## The program -/

/-- What `main` prints in the end. -/
structure SortedTable where
  sortCol : ℤ
  header : Line
  rows : List StringTable
  printed : List (List Printf)

/-- The rows, sorted by the column. -/
def sortedTable (sort : StdSort StringTable) (sortCol : ℤ) (params : LzbenchParams) :
    Option SortedTable :=
  if sortCol ≤ 0 then none
  else
    let results := sort.sort (lessUsing sortCol) params.results
    some ⟨sortCol, .header params.textformat params.showSpeed, results,
      results.map (printRow params)⟩

/-- How `main` ends. -/
inductive MainEnd (σ : Type)
  | exit (e : OptionExit)
  | done (result : ℤ) (s : Bench σ) (table : Option SortedTable)

section Program

variable (host : Host σ) (fuel : ℕ) (wrappers : Wrappers σ) (sort : StdSort StringTable)
  (createFileList : List String → σ → Option (List String) × σ)

/-- The names that are benchmarked: with `-r` those of `UTIL_createFileList`, if it returns a
list. -/
def inFileNames (o : Options) (names : List String) (w : σ) : List String × σ :=
  if o.recursive then ((createFileList names w).1.getD names, (createFileList names w).2)
  else (names, w)

/-- `main`. -/
def main (args : List String) (w : σ) : Except (Halt σ) (MainEnd σ) :=
  match readOptions defaultOptions args with
  | .error e => .ok (.exit e)
  | .ok (o, names) =>
    if names = [] then .ok (.exit .usage)
    else do
      let (names, w) := inFileNames createFileList o names w
      let r ← if o.join then lzbenchJoin host fuel wrappers o.encoderList o.params names w
        else lzbenchMain host fuel wrappers o.encoderList o.params names w
      .ok (.done r.1 r.2 (sortedTable sort o.sortCol r.2.params))

end Program

/-! ## What is printed and recorded -/

/-- A line of the table. -/
def Line.cells? : Line → Option (List Printf)
  | row cells => some cells
  | _ => none

/-- The header of the table. -/
def Line.IsHeader : Line → Prop
  | header _ _ => True
  | _ => False

/-- Neither the header nor a row. -/
def Line.Plain (l : Line) : Prop := l.cells? = none ∧ ¬ l.IsHeader

/-- The row that a run recorded. -/
def TestRun.row? (t : TestRun σ) : Option StringTable := t.report.map Report.row

/-- What was printed for a run. -/
def TestRun.cells (p : LzbenchParams) (t : TestRun σ) : List Printf :=
  (t.row?.map (printRow p)).getD []

/-- The header stands before the baseline. -/
def headerLines (p : LzbenchParams) (base : Option (TestRun σ)) : List Line :=
  base.toList.map fun _ => .header p.textformat p.showSpeed

/-- Runs with the parameters `p`, of which `base` is the baseline if there was one: the header
is printed with it, then a line for every run, the baseline's first; the rows of all others are
recorded. -/
structure Tabulates (p : LzbenchParams) (base : Option (TestRun σ)) (s : Bench σ) : Prop where
  textformat_eq : s.params.textformat = p.textformat
  showSpeed_eq : s.params.showSpeed = p.showSpeed
  rows : ∃ rest, s.tests = base.toList ++ rest ∧
    s.params.results = rest.filterMap TestRun.row?
  lines : ∃ before after, s.printed = before ++ headerLines p base ++ after ∧
    (∀ l ∈ before, l.Plain) ∧ (∀ l ∈ after, ¬ l.IsHeader) ∧
    after.filterMap Line.cells? = s.tests.map (TestRun.cells p)

/-- A run records its row, and prints what the printer makes of it. -/
theorem lzbenchTest_prints {env : Env σ} {params : LzbenchParams} {fileSizes : List ℕ}
    {desc : CompressorDesc σ} {level : ℤ} {inbuf : Mem} {insize : ℕ} {comprsize : UInt64}
    {param1 fuel : ℕ} {compbuf decomp : Mem} {w : σ} {res : TestResult σ}
    (h : lzbenchTest env params fileSizes desc level inbuf insize comprsize param1 fuel compbuf
      decomp w = .ok res) :
    res.results = params.results ++ (res.report.map Report.row).toList ∧
      res.printed = ((res.report.map Report.row).map (printRow params)).getD [] := by
  rcases lzbenchTest_returned h with hres | ⟨_, _, _, _, _, _, rep, -, -, -, hrec⟩
  · simp [hres.report_eq, hres.results_eq, hres.printed_eq]
  · simp [hrec.report_eq, hrec.results_eq, hrec.printed_eq]

/-- A row has the name of its compressor; without a speed limit only a missing function leaves
no row. -/
theorem lzbenchTest_row {env : Env σ} {params : LzbenchParams} {fileSizes : List ℕ}
    {desc : CompressorDesc σ} {level : ℤ} {inbuf : Mem} {insize : ℕ} {comprsize : UInt64}
    {param1 fuel : ℕ} {compbuf decomp : Mem} {w : σ} {res : TestResult σ}
    (h : lzbenchTest env params fileSizes desc level inbuf insize comprsize param1 fuel compbuf
      decomp w = .ok res) :
    (∀ row, res.report.map Report.row = some row → row.col1_algname = algName desc level) ∧
      (params.cspeed = 0 → desc.compress ≠ none → desc.decompress ≠ none →
        res.report.map Report.row ≠ none) := by
  rcases lzbenchTest_returned h with hres | ⟨_, _, _, _, _, _, rep, -, -, -, hrec⟩
  · constructor
    · intro row hrow
      simp [hres.report_eq] at hrow
    · intro hspeed hc hd
      exact absurd (hres.missing hspeed) (by simp [hc, hd])
  · constructor
    · intro row hrow
      simp only [hrec.report_eq, Option.map_some, Option.some.injEq] at hrow
      rw [← hrow, hrec.row]
      rfl
    · simp [hrec.report_eq]

section Record

variable {host : Host σ} {fuel : ℕ} {wrappers : Wrappers σ} {encoderList : Option String}

/-- What a run adds to the driver. -/
theorem benchTest_prints {input : Input} {comprsize : ℕ} {params : LzbenchParams}
    {desc : CompressorDesc σ} {level : ℤ} {param1 : ℕ} {s : Bench σ} {r : TestResult σ × Bench σ}
    (h : benchTest host fuel input comprsize params desc level param1 s = .ok r) :
    ∃ t : TestRun σ, r.2.tests = s.tests ++ [t] ∧
      r.2.printed = s.printed ++ [.row (t.cells params)] ∧ r.2.params = s.params ∧
      r.1.results = params.results ++ t.row?.toList ∧
      (∀ row, t.row? = some row → row.col1_algname = algName desc level) ∧
      (params.cspeed = 0 → desc.compress ≠ none → desc.decompress ≠ none → t.row? ≠ none) := by
  simp only [benchTest] at h
  split at h
  · cases h
  · rename_i res hrun
    cases h
    have hprints := lzbenchTest_prints hrun
    have hrow := lzbenchTest_row hrun
    exact ⟨_, rfl, by rw [hprints.2]; rfl, rfl, hprints.1, hrow.1, hrow.2⟩

variable {p : LzbenchParams} {base : Option (TestRun σ)} {begun : Prop}

/-- Lines that are not of the table. -/
theorem Tabulates.plain {s : Bench σ} (h : Tabulates p base s) {ls : List Line}
    (hls : ∀ l ∈ ls, l.Plain) : Tabulates p base { s with printed := s.printed ++ ls } := by
  obtain ⟨before, after, hprinted, hbefore, hafter, hcells⟩ := h.lines
  refine ⟨h.textformat_eq, h.showSpeed_eq, h.rows, before, after ++ ls, ?_, hbefore, ?_, ?_⟩
  · simp [hprinted]
  · exact List.forall_mem_append.mpr ⟨hafter, fun l hl => (hls l hl).2⟩
  · have hnone : ls.filterMap Line.cells? = [] :=
      List.filterMap_eq_nil_iff.mpr fun l hl => (hls l hl).1
    rw [List.filterMap_append, hcells, hnone, List.append_nil]

/-- A run. -/
theorem Tabulates.run {s s' : Bench σ} {res : TestResult σ} {t : TestRun σ}
    (h : Tabulates p base s) (htests : s'.tests = s.tests ++ [t])
    (hprinted : s'.printed = s.printed ++ [.row (t.cells s.params)])
    (hparams : s'.params = s.params)
    (hresults : res.results = s.params.results ++ t.row?.toList) :
    Tabulates p base { s' with params := { s'.params with results := res.results } } := by
  obtain ⟨rest, hrest, hrows⟩ := h.rows
  obtain ⟨before, after, hlines, hbefore, hafter, hcells⟩ := h.lines
  have hsame : t.cells s.params = t.cells p := by
    rw [TestRun.cells, TestRun.cells, printRow_congr h.textformat_eq h.showSpeed_eq]
  refine ⟨hparams ▸ h.textformat_eq, hparams ▸ h.showSpeed_eq, ⟨rest ++ [t], ?_, ?_⟩, before,
    after ++ [.row (t.cells p)], ?_, hbefore, ?_, ?_⟩
  · simp [htests, hrest]
  · simp only [hresults, hrows, List.filterMap_append]
    cases hrow : t.row? <;> simp [hrow]
  · simp [hprinted, hlines, hsame]
  · exact List.forall_mem_append.mpr ⟨hafter, by simp [Line.IsHeader]⟩
  · simp [List.filterMap_append, hcells, htests, Line.cells?]

/-- The encoder list. -/
theorem ends_benchEncoders_tabulates {input : Input} {comprsize : ℕ} {s : Bench σ}
    (hs : Tabulates p base s) :
    Ends (Tabulates p base) (fun _ => True)
      (benchEncoders host fuel wrappers encoderList input comprsize s) := by
  refine ends_lzbenchTestWithParams (fun desc _ level param1 s hs => ?_)
    (fun name param s hs => hs.plain (by simp [Line.Plain, Line.cells?, Line.IsHeader]))
    (fun _ _ => trivial) fuel _ hs
  simp only [benchActions]
  cases hrun : benchTest host fuel input comprsize s.params desc level param1 s with
  | error e => exact (ends_error _ _ _).mpr trivial
  | ok r =>
    obtain ⟨t, htests, hprinted, hparams, hresults, -⟩ := benchTest_prints hrun
    exact (ends_ok _ _ _).mpr (hs.run htests hprinted hparams hresults)

/-- The parts of a file. -/
theorem ends_benchParts_tabulates {file size comprsize : ℕ} {filename : Text}
    (rounds : ℕ) (i : ℤ) (insize : ℕ) (inbuf : Mem) {s : Bench σ} (hs : Tabulates p base s) :
    Ends (Tabulates p base) (fun _ => True)
      (benchParts host fuel wrappers encoderList file size comprsize filename rounds i insize inbuf
        s) := by
  induction rounds generalizing i insize inbuf s with
  | zero => exact (ends_error _ _ _).mpr trivial
  | succ rounds ih =>
    rw [benchParts]
    split
    · have hnamed : Tabulates p base
          { s with params := { s.params with inFilename := partName filename i } } :=
        ⟨hs.textformat_eq, hs.showSpeed_eq, hs.rows, hs.lines⟩
      apply (ends_benchEncoders_tabulates hnamed).bind
      intro s' hs'
      cases hread : halted s'.tests (freadInto host file insize size 0 inbuf s'.world) with
      | error e => exact (ends_error _ _ _).mpr trivial
      | ok r =>
        refine ih (toInt32 (i + 1)) r.1 r.2.1 ?_
        exact ⟨hs'.textformat_eq, hs'.showSpeed_eq, hs'.rows, hs'.lines⟩
    · exact (ends_ok _ _ _).mpr hs

theorem ends_benchRead_tabulates {file realInsize size comprsize insize : ℕ} {inbuf : Mem}
    {s : Bench σ} (hs : Tabulates p base s) :
    Ends (Tabulates p base) (fun _ => True)
      (benchRead host fuel wrappers encoderList file realInsize size comprsize insize inbuf s) := by
  rw [benchRead]
  split
  · exact ends_benchParts_tabulates fuel 1 insize inbuf hs
  · exact ends_benchEncoders_tabulates hs

/-- Before the header. -/
structure Untabulated (p : LzbenchParams) (s : Bench σ) : Prop where
  textformat_eq : s.params.textformat = p.textformat
  showSpeed_eq : s.params.showSpeed = p.showSpeed
  cspeed_eq : s.params.cspeed = p.cspeed
  results_eq : s.params.results = []
  tests_eq : s.tests = []
  lines : ∀ l ∈ s.printed, l.Plain

/-- Nothing was run. -/
theorem Untabulated.tabulates {s : Bench σ} (hs : Untabulated p s) : Tabulates p none s := by
  refine ⟨hs.textformat_eq, hs.showSpeed_eq, ⟨[], by simp [hs.tests_eq], by simp [hs.results_eq]⟩,
    s.printed, [], by simp [headerLines], hs.lines, by simp, by simp [hs.tests_eq]⟩

/-- The functions of the baseline are there; both are in every build. -/
def MemcpyBuilt (wrappers : Wrappers σ) : Prop :=
  wrappers.code "lzbench_return_0" ≠ none ∧ wrappers.code "lzbench_memcpy" ≠ none

/-- The run of the baseline; only a speed limit keeps its row away. -/
structure IsBaseline (wrappers : Wrappers σ) (p : LzbenchParams) (t : TestRun σ) : Prop where
  named : ∀ row, t.row? = some row → row.col1_algname = utf8 "memcpy "
  reported : MemcpyBuilt wrappers → p.cspeed = 0 → t.row? ≠ none

/-- After the runs, which have a baseline if `begun`. -/
def Tabulated (wrappers : Wrappers σ) (p : LzbenchParams) (begun : Prop) (s : Bench σ) : Prop :=
  ∃ base, (begun → base ≠ none) ∧ (∀ t ∈ base, IsBaseline wrappers p t) ∧ Tabulates p base s

theorem algName_memcpy (wrappers : Wrappers σ) :
    algName ((compTable.head (by decide)).desc wrappers) 0 = utf8 "memcpy " := by
  have hformat : ∀ name version, name = "memcpy" → version = "" →
      format (utf8 s!"{name} {version}") = utf8 "memcpy " := by
    rintro _ _ rfl rfl
    decide
  exact hformat _ _ rfl rfl

/-- The header and the baseline. -/
theorem ends_benchMemcpy_tabulated {input : Input} {s : Bench σ} (hs : Untabulated p s) :
    Ends (Tabulated wrappers p begun) (fun _ => True)
      (benchMemcpy host fuel wrappers input
        { s with printed := s.printed ++ [.header s.params.textformat s.params.showSpeed] }) := by
  simp only [benchMemcpy]
  cases hrun : benchTest host fuel input input.insize (memcpyParams s.params)
      ((compTable.head (by decide)).desc wrappers) 0 0
      { s with printed := s.printed ++ [.header s.params.textformat s.params.showSpeed] } with
  | error e => exact (ends_error _ _ _).mpr trivial
  | ok r =>
    obtain ⟨t, htests, hprinted, hparams, -, hnamed, hreported⟩ := benchTest_prints hrun
    have hbaseline : IsBaseline wrappers p t := by
      constructor
      · intro row hrow
        rw [hnamed row hrow]
        exact algName_memcpy wrappers
      · intro hbuilt hspeed
        have hdesc : ((compTable.head (by decide)).desc wrappers).compress ≠ none ∧
            ((compTable.head (by decide)).desc wrappers).decompress ≠ none := hbuilt
        exact hreported (hs.cspeed_eq.trans hspeed) hdesc.1 hdesc.2
    refine (ends_ok _ _ _).mpr ⟨some t, fun _ => by simp, ?_, ?_⟩
    · simpa using hbaseline
    · have hprint : t.cells (memcpyParams s.params) = t.cells p := by
        have hsame : printRow (memcpyParams s.params) = printRow p :=
          printRow_congr hs.textformat_eq hs.showSpeed_eq
        rw [TestRun.cells, TestRun.cells, hsame]
      refine ⟨hparams ▸ hs.textformat_eq, hparams ▸ hs.showSpeed_eq, ⟨[], ?_, ?_⟩, s.printed,
        [.row (t.cells p)], ?_, hs.lines, ?_, ?_⟩
      · simp [htests, hs.tests_eq]
      · simp [hparams, hs.results_eq]
      · simp [hprinted, hprint, headerLines, hs.textformat_eq, hs.showSpeed_eq]
      · simp [Line.IsHeader]
      · simp [htests, hs.tests_eq, Line.cells?]

/-- A file, from what its baseline comes to. -/
theorem ends_benchFile_of_baseline {first : Bool} {file realInsize insize : ℕ} {inbuf : Mem}
    {s : Bench σ}
    (hbase : ∀ request input w, Ends (Tabulated wrappers p begun) (fun _ => True)
      (benchBaseline host fuel wrappers first input
        { s with printed := s.printed ++ requestLines s.params request, world := w })) :
    Ends (Tabulated wrappers p begun) (fun _ => True)
      (benchFile host fuel wrappers encoderList first file realInsize insize inbuf s) := by
  simp only [benchFile]
  cases halted s.tests (readRequest host s.params file realInsize insize s.world) with
  | error e => exact (ends_error _ _ _).mpr trivial
  | ok request =>
    simp only [bind, Except.bind]
    cases halted s.tests (freadInto host file request.1.2 (addSize insize padSize) 0 inbuf
        request.2) with
    | error e => exact (ends_error _ _ _).mpr trivial
    | ok read =>
      apply (hbase request.1 ⟨[read.1], read.2.1, read.1⟩ read.2.2).bind
      rintro t ⟨base, hbegun, hbaseline, ht⟩
      apply (ends_benchRead_tabulates ht).bind
      intro t' ht'
      exact (ends_ok _ _ _).mpr
        ⟨base, hbegun, hbaseline, ht'.textformat_eq, ht'.showSpeed_eq, ht'.rows, ht'.lines⟩

theorem plain_requestLines (params : LzbenchParams) (request : ℕ × ℕ) :
    ∀ l ∈ requestLines params request, l.Plain := by
  intro l hl
  rw [requestLines] at hl
  split at hl
  · rw [List.mem_singleton.mp hl]
    simp [Line.Plain, Line.cells?, Line.IsHeader]
  · cases hl

/-- The first file. -/
theorem ends_benchFile_first {file realInsize insize : ℕ} {inbuf : Mem} {s : Bench σ}
    (hs : Untabulated p s) :
    Ends (Tabulated wrappers p begun) (fun _ => True)
      (benchFile host fuel wrappers encoderList true file realInsize insize inbuf s) := by
  apply ends_benchFile_of_baseline
  intro request input w
  rw [benchBaseline, if_pos rfl]
  apply ends_benchMemcpy_tabulated
  exact ⟨hs.textformat_eq, hs.showSpeed_eq, hs.cspeed_eq, hs.results_eq, hs.tests_eq,
    List.forall_mem_append.mpr ⟨hs.lines, plain_requestLines s.params request⟩⟩

/-- A later file. -/
theorem ends_benchFile_later {file realInsize insize : ℕ} {inbuf : Mem} {s : Bench σ}
    (hs : Tabulated wrappers p begun s) :
    Ends (Tabulated wrappers p begun) (fun _ => True)
      (benchFile host fuel wrappers encoderList false file realInsize insize inbuf s) := by
  apply ends_benchFile_of_baseline
  intro request input w
  rw [benchBaseline, if_neg Bool.false_ne_true]
  obtain ⟨base, hbegun, hbaseline, hs⟩ := hs
  have hs' := hs.plain (plain_requestLines s.params request)
  exact (ends_ok _ _ _).mpr
    ⟨base, hbegun, hbaseline, hs'.textformat_eq, hs'.showSpeed_eq, hs'.rows, hs'.lines⟩

/-- The driver after a file was begun. -/
def Opening.bench : Opening σ → Bench σ
  | skipped s => s
  | noMemory s => s
  | opened _ _ _ s => s

/-- Beginning a file prints no line of the table, and keeps all but the name in the
parameters. -/
theorem openFile_keeps {name : String} {s : Bench σ} {r : Opening σ}
    (h : openFile host name s = .ok r) :
    (∃ ls, (∀ l ∈ ls, Line.Plain l) ∧ r.bench.printed = s.printed ++ ls) ∧
      r.bench.tests = s.tests ∧ ∃ name, r.bench.params = { s.params with inFilename := name } := by
  have hline : ∀ l : Line, l.Plain → ∃ ls, (∀ l ∈ ls, Line.Plain l) ∧
      s.printed ++ [l] = s.printed ++ ls := fun l hl => ⟨[l], by simpa using hl, rfl⟩
  rcases openFile_cases host h with ⟨l, w, hl, rfl⟩ | ⟨w, rfl⟩ | ⟨_, _, _, _, _, _, rfl⟩
  · have hplain : l.Plain := by
      rcases hl with rfl | rfl
      · exact ⟨rfl, id⟩
      · exact ⟨rfl, id⟩
    exact ⟨hline l hplain, rfl, s.params.inFilename, rfl⟩
  · exact ⟨hline _ ⟨rfl, id⟩, rfl, fileName name, rfl⟩
  · exact ⟨⟨[], by simp, (List.append_nil _).symm⟩, rfl, fileName name, rfl⟩

/-- A later file of the loop. -/
theorem ends_mainFile_later {name : String} {s : Bench σ} (hs : Tabulated wrappers p begun s) :
    Ends (fun r => Tabulated wrappers p begun r.2) (fun _ => True)
      (mainFile host fuel wrappers encoderList false name s) := by
  rw [mainFile_eq_openFile]
  cases hopen : openFile host name s with
  | error e => exact (ends_error _ _ _).mpr trivial
  | ok r =>
    have hr : Tabulated wrappers p begun r.bench := by
      obtain ⟨base, hbegun, hbaseline, hs⟩ := hs
      obtain ⟨⟨ls, hls, hprinted⟩, htests, name, hparams⟩ := openFile_keeps hopen
      have hplain := hs.plain hls
      refine ⟨base, hbegun, hbaseline, ?_, ?_, ?_, ?_⟩
      · simp [hparams, hs.textformat_eq]
      · simp [hparams, hs.showSpeed_eq]
      · simpa [hparams, htests] using hs.rows
      · simpa [hprinted, htests] using hplain.lines
    cases r with
    | skipped t => exact (ends_ok _ _ _).mpr hr
    | noMemory t => exact (ends_ok _ _ _).mpr hr
    | opened file realInsize inbuf t =>
      exact (ends_benchFile_later (hr :)).map fun _ ht => ht

/-- The files after the first. -/
theorem ends_mainFiles_later {names : List String} {s : Bench σ}
    (hs : Tabulated wrappers p begun s) :
    Ends (fun r => Tabulated wrappers p begun r.2) (fun _ => True)
      (mainFiles host fuel wrappers encoderList false names s) := by
  induction names generalizing s with
  | nil => exact (ends_ok _ _ _).mpr hs
  | cons name rest ih =>
    rw [mainFiles]
    apply (ends_mainFile_later hs).bind
    intro r hr
    split
    · exact ih hr
    · exact (ends_ok _ _ _).mpr hr

/-- The first file of the loop. -/
theorem ends_mainFile_first {name : String} {s : Bench σ} (hs : Untabulated p s)
    (hbegun : begun → ∃ file realInsize inbuf t,
      openFile host name s = .ok (.opened file realInsize inbuf t)) :
    Ends (fun r => Tabulated wrappers p begun r.2) (fun _ => True)
      (mainFile host fuel wrappers encoderList true name s) := by
  rw [mainFile_eq_openFile]
  cases hopen : openFile host name s with
  | error e => exact (ends_error _ _ _).mpr trivial
  | ok r =>
    have hr : Untabulated p r.bench := by
      obtain ⟨⟨ls, hls, hprinted⟩, htests, name, hparams⟩ := openFile_keeps hopen
      constructor
      · simp [hparams, hs.textformat_eq]
      · simp [hparams, hs.showSpeed_eq]
      · simp [hparams, hs.cspeed_eq]
      · simp [hparams, hs.results_eq]
      · exact htests.trans hs.tests_eq
      · rw [hprinted]
        exact List.forall_mem_append.mpr ⟨hs.lines, hls⟩
    -- nothing is run for a file that is left out, so that it cannot be the baseline's
    have hleft : (∀ file realInsize inbuf t, r ≠ .opened file realInsize inbuf t) →
        Tabulated wrappers p begun r.bench := by
      intro hnot
      refine ⟨none, fun h => ?_, by simp, hr.tabulates⟩
      obtain ⟨file, realInsize, inbuf, t, hopened⟩ := hbegun h
      rw [hopen] at hopened
      exact absurd (Except.ok.inj hopened) (hnot file realInsize inbuf t)
    cases r with
    | skipped t => exact (ends_ok _ _ _).mpr (hleft fun _ _ _ _ h => by cases h)
    | noMemory t => exact (ends_ok _ _ _).mpr (hleft fun _ _ _ _ h => by cases h)
    | opened file realInsize inbuf t =>
      exact (ends_benchFile_first (hr :)).map fun _ ht => ht

/-- The baseline comes with the first file, if that can be opened. -/
theorem ends_lzbenchMain_tabulated {params : LzbenchParams} {names : List String} {w : σ}
    (hresults : params.results = [])
    (hbegun : begun → ∃ name rest file realInsize inbuf t, names = name :: rest ∧
      openFile host name ⟨params, fun _ => 0, fun _ => 0, [], w, []⟩ =
        .ok (.opened file realInsize inbuf t)) :
    Ends (fun r => Tabulated wrappers params begun r.2) (fun _ => True)
      (lzbenchMain host fuel wrappers encoderList params names w) := by
  have hstart : Untabulated params (⟨params, fun _ => 0, fun _ => 0, [], w, []⟩ : Bench σ) :=
    ⟨rfl, rfl, rfl, hresults, rfl, by simp⟩
  rw [lzbenchMain]
  cases names with
  | nil =>
    refine (ends_ok _ _ _).mpr ⟨none, fun h => ?_, by simp, hstart.tabulates⟩
    obtain ⟨name, rest, _, _, _, _, hnames, -⟩ := hbegun h
    cases hnames
  | cons name rest =>
    rw [mainFiles]
    apply (ends_mainFile_first hstart ?_).bind
    · intro r hr
      split
      · exact ends_mainFiles_later hr
      · exact (ends_ok _ _ _).mpr hr
    · intro h
      obtain ⟨first, later, file, realInsize, inbuf, t, hnames, hopen⟩ := hbegun h
      cases hnames
      exact ⟨file, realInsize, inbuf, t, hopen⟩

/-- A loop that ends early has printed no line of the table. -/
def JoinExit.Plain : JoinExit σ → Prop
  | stop _ => True
  | clean s => ∀ l ∈ s.printed, l.Plain

/-- Reading a file prints no line of the table. -/
theorem ends_joinFile_plain {totalsize : ℕ} {s : Joined σ} {name : String}
    (hs : ∀ l ∈ s.printed, Line.Plain l) :
    Ends (fun t : Joined σ => ∀ l ∈ t.printed, Line.Plain l) JoinExit.Plain
      (joinFile host totalsize s name) := by
  have hadd : ∀ l : Line, l.Plain → ∀ l' ∈ s.printed ++ [l], Line.Plain l' := by
    intro l hl
    exact List.forall_mem_append.mpr ⟨hs, List.forall_mem_singleton.mpr hl⟩
  simp only [joinFile]
  split
  · exact (ends_ok _ _ _).mpr (hadd _ ⟨rfl, id⟩)
  split
  · exact (ends_ok _ _ _).mpr (hadd _ ⟨rfl, id⟩)
  split
  · exact (ends_error _ _ _).mpr (hadd _ ⟨rfl, id⟩)
  split
  · exact (ends_error _ _ _).mpr trivial
  · exact (ends_ok _ _ _).mpr hs

/-- The driver before the first run. -/
def Joining.bench : Joining σ → Bench σ
  | ended _ s => s
  | joined _ input s => { s with printed := input.printed, world := input.world }

/-- Reading the files runs nothing. -/
theorem readJoined_untabulated {params : LzbenchParams} {names : List String} {w : σ}
    {r : Joining σ} (hresults : params.results = [])
    (h : readJoined host params names w = .ok r) : Untabulated params r.bench := by
  have hfold : ∀ (totalsize : ℕ) (inbuf : Mem) (w : σ),
      Ends (fun t : Joined σ => ∀ l ∈ t.printed, Line.Plain l) JoinExit.Plain
        (names.foldlM (joinFile host totalsize) ⟨inbuf, 0, [], [], w⟩) := by
    intro totalsize inbuf w
    exact ends_foldlM (fun _ (s : Joined σ) => ∀ l ∈ s.printed, Line.Plain l) names (by simp)
      fun _ _ _ s _ hs => ends_joinFile_plain hs
  have hplain : ∀ l : Line, l.Plain → ∀ l' ∈ [l], Line.Plain l' := by
    intro l hl
    exact List.forall_mem_singleton.mpr hl
  simp only [readJoined] at h
  split at h
  · cases h
    exact ⟨rfl, rfl, rfl, hresults, rfl, hplain _ ⟨rfl, id⟩⟩
  obtain ⟨inbuf, -, h⟩ := bind_eq_ok.mp h
  obtain ⟨compbuf, -, h⟩ := bind_eq_ok.mp h
  obtain ⟨decomp, -, h⟩ := bind_eq_ok.mp h
  split at h
  · split at h
    · cases h
    · rename_i j hclean
      cases h
      exact ⟨rfl, rfl, rfl, hresults, rfl, ((hfold _ _ _).error _ hclean :)⟩
    · rename_i j hread
      split at h
      · cases h
        exact ⟨rfl, rfl, rfl, hresults, rfl, (hfold _ _ _).ok _ hread⟩
      · cases h
        exact ⟨rfl, rfl, rfl, hresults, rfl, (hfold _ _ _).ok _ hread⟩
  · cases h
    exact ⟨rfl, rfl, rfl, hresults, rfl, hplain _ ⟨rfl, id⟩⟩

/-- The baseline comes with the files that were read into one buffer. -/
theorem ends_lzbenchJoin_tabulated {params : LzbenchParams} {names : List String} {w : σ}
    (hresults : params.results = [])
    (hbegun : begun → ∃ totalsize input t,
      readJoined host params names w = .ok (.joined totalsize input t)) :
    Ends (fun r => Tabulated wrappers params begun r.2) (fun _ => True)
      (lzbenchJoin host fuel wrappers encoderList params names w) := by
  rw [lzbenchJoin_eq_readJoined]
  cases hread : readJoined host params names w with
  | error e => exact (ends_error _ _ _).mpr trivial
  | ok r =>
    have hr := readJoined_untabulated hresults hread
    cases r with
    | ended result s =>
      refine (ends_ok _ _ _).mpr ⟨none, fun h => ?_, by simp, hr.tabulates⟩
      obtain ⟨totalsize, input, t, hjoined⟩ := hbegun h
      rw [hread] at hjoined
      cases hjoined
    | joined totalsize input t =>
      have hrun : Ends (Tabulated wrappers params begun) (fun _ => True)
          (benchJoined host fuel wrappers encoderList (getCompressBound totalsize) input t) := by
        simp only [benchJoined]
        generalize format (utf8 s!"{toInt32 input.fileSizes.length} files") = text
        have htext : Untabulated params { t with
            params := { t.params with inFilename := text }
            printed := input.printed
            world := input.world } :=
          ⟨hr.textformat_eq, hr.showSpeed_eq, hr.cspeed_eq, hr.results_eq, hr.tests_eq, hr.lines⟩
        apply Ends.bind (P := Tabulated wrappers params begun)
        · exact (ends_benchMemcpy_tabulated htext :)
        · rintro s ⟨base, hbase, hbaseline, hs⟩
          exact (ends_benchEncoders_tabulates hs).mono
            (fun s hs => ⟨base, hbase, hbaseline, hs⟩) fun _ h => h
      exact hrun.map fun _ ht => ht

end Record

/-! ## The whole program -/

/-- The baseline is come to: the first name can be opened, or with `-j` there are files that
could be read into one buffer. -/
def ComesToBaseline (host : Host σ) (o : Options) (names : List String) (w : σ) : Prop :=
  if o.join then
    ∃ totalsize input t, readJoined host o.params names w = .ok (.joined totalsize input t)
  else
    ∃ name rest file realInsize inbuf t, names = name :: rest ∧
      openFile host name ⟨o.params, fun _ => 0, fun _ => 0, [], w, []⟩ =
        .ok (.opened file realInsize inbuf t)

/-- The rows that were printed are those of the runs; with `-c` the table has the rows of all
runs but the baseline's, each once, in the order of the column. -/
structure TableComplete (wrappers : Wrappers σ) (o : Options) (s : Bench σ)
    (table : Option SortedTable) (base : Option (TestRun σ)) (rest : List (TestRun σ)) :
    Prop where
  tests_eq : s.tests = base.toList ++ rest
  baseline : ∀ t ∈ base, IsBaseline wrappers o.params t
  printed : s.printed.filterMap Line.cells? = s.tests.map (TestRun.cells o.params)
  unsorted : o.sortCol ≤ 0 → table = none
  sorted : 0 < o.sortCol → ∃ t, table = some t ∧ t.sortCol = o.sortCol ∧
    t.header = .header o.params.textformat o.params.showSpeed ∧
    t.rows.Perm (rest.filterMap TestRun.row?) ∧ t.rows.Pairwise (InOrder o.sortCol) ∧
    t.printed = t.rows.map (printRow o.params)

/-- The header is printed once, before every row. -/
def Headed (o : Options) (s : Bench σ) : Prop :=
  ∃ before after, s.printed = before ++ .header o.params.textformat o.params.showSpeed :: after ∧
    (∀ l ∈ before, l.Plain) ∧ ∀ l ∈ after, ¬ l.IsHeader

/-- The rows that were recorded, sorted. -/
theorem tableComplete_of_tabulates {wrappers : Wrappers σ} {sort : StdSort StringTable}
    {o : Options} {s : Bench σ} {base : Option (TestRun σ)}
    (hbase : ∀ t ∈ base, IsBaseline wrappers o.params t) (hs : Tabulates o.params base s) :
    ∃ rest, TableComplete wrappers o s (sortedTable sort o.sortCol s.params) base rest := by
  obtain ⟨rest, htests, hresults⟩ := hs.rows
  obtain ⟨before, after, hprinted, hbefore, -, hcells⟩ := hs.lines
  have hplain : before.filterMap Line.cells? = [] :=
    List.filterMap_eq_nil_iff.mpr fun l hl => (hbefore l hl).1
  have hheader : (headerLines o.params base).filterMap Line.cells? = [] := by
    cases base <;> simp [headerLines, Line.cells?]
  have hrows : s.printed.filterMap Line.cells? = s.tests.map (TestRun.cells o.params) := by
    simp [hprinted, hplain, hheader, hcells]
  refine ⟨rest, htests, hbase, hrows, fun hcol => if_pos hcol, fun hcol => ?_⟩
  have hsorted := sort_lessUsing sort o.sortCol s.params.results
  have hprint : printRow s.params = printRow o.params :=
    printRow_congr hs.textformat_eq hs.showSpeed_eq
  refine ⟨_, if_neg (by omega), rfl, ?_, ?_, hsorted.2, ?_⟩
  · simp [hs.textformat_eq, hs.showSpeed_eq]
  · simpa [hresults] using hsorted.1
  · simp [hprint]

/-- The header stands before the baseline, and nowhere else. -/
theorem headed_of_tabulates {o : Options} {s : Bench σ} {base : TestRun σ}
    (hs : Tabulates o.params (some base) s) : Headed o s := by
  obtain ⟨before, after, hprinted, hbefore, hafter, -⟩ := hs.lines
  exact ⟨before, after, by simpa [headerLines] using hprinted, hbefore, hafter⟩

/-- Every run ends with a complete table; if it comes to its baseline the header is printed
once, before all rows, and the first of these is the baseline's. -/
theorem table_complete (host : Host σ) (fuel : ℕ) (wrappers : Wrappers σ)
    (sort : StdSort StringTable) (createFileList : List String → σ → Option (List String) × σ)
    {args names : List String} {w : σ} {o : Options} {result : ℤ} {s : Bench σ}
    {table : Option SortedTable} (hoptions : readOptions defaultOptions args = .ok (o, names))
    (hrun : main host fuel wrappers sort createFileList args w = .ok (.done result s table)) :
    ∃ base rest, TableComplete wrappers o s table base rest ∧
      (ComesToBaseline host o (inFileNames createFileList o names w).1
        (inFileNames createFileList o names w).2 → base ≠ none ∧ Headed o s) := by
  have hresults := (readOptions_settings settings_defaultOptions hoptions).results_eq
  have hend : ∀ begun (r : Except (Halt σ) (ℤ × Bench σ)),
      Ends (fun r => Tabulated wrappers o.params begun r.2) (fun _ => True) r →
      (r.bind fun r => .ok (MainEnd.done r.1 r.2 (sortedTable sort o.sortCol r.2.params))) =
        .ok (.done result s table) →
      ∃ base rest, TableComplete wrappers o s table base rest ∧
        (begun → base ≠ none ∧ Headed o s) := by
    intro begun r htabulated hdone
    cases r with
    | error e => cases hdone
    | ok r =>
      cases hdone
      obtain ⟨base, hbegun, hbaseline, htabulates⟩ := htabulated.ok r rfl
      obtain ⟨rest, hcomplete⟩ := tableComplete_of_tabulates hbaseline htabulates
      refine ⟨base, rest, hcomplete, fun h => ⟨hbegun h, ?_⟩⟩
      cases base with
      | none => exact absurd rfl (hbegun h)
      | some base => exact headed_of_tabulates htabulates
  simp only [main, hoptions] at hrun
  split at hrun
  · cases hrun
  split at hrun
  · rename_i hjoin
    refine hend _ _ (ends_lzbenchJoin_tabulated hresults fun h => ?_) hrun
    rwa [ComesToBaseline, if_pos hjoin] at h
  · rename_i hmain
    refine hend _ _ (ends_lzbenchMain_tabulated hresults fun h => ?_) hrun
    rwa [ComesToBaseline, if_neg hmain] at h

/-! ## A run -/

/-- A clock that goes on by a second whenever it is read, and one file of any name. -/
def tickingHost (content : List UInt8) : Host ℕ where
  env := ⟨fun w => (w, w + 1000000000), id, 0⟩
  isDirectory _ w := (false, w)
  totalFileSize _ w := (content.length, w)
  fopen _ w := (some 0, w)
  fclose _ w := w
  ftello _ w := (content.length, w)
  fseeko _ _ w := w
  fread _ n w := (content.take n, w)
  fread_le _ n _ := List.length_take_le n content
  rand w := (0, w)
  malloc _ w := (some fun _ => 0, w)
  calloc _ w := (true, w)

/-- Encoders that store raw. -/
def storeWrappers : Wrappers ℕ where
  code name := some (if name = "lzbench_memcpy" then lzbenchMemcpy else lzbenchReturn0)
  init _ := none
  deinit _ := none

/-- The program on a file of three bytes. -/
def mainOn (args : List String) : Except (Halt ℕ) (MainEnd ℕ) :=
  main (tickingHost [1, 2, 3]) 3 storeWrappers .insertion (fun _ w => (none, w)) args 0

/-- The arguments of the run. -/
def runArgs : List String := ["-c1", "-elz4", "data"]

/-- The baseline and one compressor, of which the table has the second. -/
theorem mainOn_runArgs : ∃ s t, mainOn runArgs = .ok (.done 0 s (some t)) ∧
    s.tests.filterMap (fun t => t.row?.map StringTable.col1_algname) =
      [utf8 "memcpy ", utf8 "lz4 1.9.3"] ∧
    t.rows.map StringTable.col1_algname = [utf8 "lz4 1.9.3"] := ⟨_, _, rfl, rfl, rfl⟩

/-- The table of the run is complete, and the run has a header and a baseline. -/
theorem table_complete_runArgs : ∃ o s t base rest,
    readOptions defaultOptions runArgs = .ok (o, ["data"]) ∧
      mainOn runArgs = .ok (.done 0 s (some t)) ∧
      TableComplete storeWrappers o s (some t) base rest ∧ base ≠ none ∧ Headed o s := by
  have hoptions : ∃ o, readOptions defaultOptions runArgs = .ok (o, ["data"]) ∧
      ComesToBaseline (tickingHost [1, 2, 3]) o ["data"] 0 ∧ o.recursive = false := by
    refine ⟨_, rfl, ?_, rfl⟩
    rw [ComesToBaseline, if_neg (by decide)]
    exact ⟨"data", [], 0, 3, _, _, rfl, rfl⟩
  obtain ⟨o, hoptions, hbase, hflat⟩ := hoptions
  obtain ⟨s, t, hrun, -, -⟩ := mainOn_runArgs
  have hnames : inFileNames (fun _ (w : ℕ) => (none, w)) o ["data"] 0 = (["data"], 0) := by
    simp [inFileNames, hflat]
  obtain ⟨base, rest, hcomplete, hheaded⟩ := table_complete (tickingHost [1, 2, 3]) 3
    storeWrappers .insertion (fun _ w => (none, w)) hoptions hrun
  have hbaseline := hheaded (by rw [hnames]; exact hbase)
  exact ⟨o, s, t, base, rest, hoptions, hrun, hcomplete, hbaseline.1, hbaseline.2⟩

/-- The table does not have the row of the baseline, which was printed. -/
theorem baseline_not_sorted : ∃ s t, mainOn runArgs = .ok (.done 0 s (some t)) ∧
    ¬ t.rows.Perm (s.tests.filterMap TestRun.row?) := by
  obtain ⟨s, t, hrun, hprinted, hsorted⟩ := mainOn_runArgs
  refine ⟨s, t, hrun, fun hperm => ?_⟩
  have hnames := (hperm.map StringTable.col1_algname).length_eq
  rw [hsorted, List.map_filterMap, hprinted] at hnames
  cases hnames

end Lzbench
