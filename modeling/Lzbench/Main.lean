import Lzbench.EncoderList
import Lzbench.Verification

/-!
# The two drivers

`lzbench_main` benchmarks file after file, a large one in parts that share their
buffers; `lzbench_join` reads all files into one buffer first.  Both allocate the
buffers, run the `memcpy` baseline and hand the rest to the encoder list.

What the program asks of the operating system is a parameter, `Host`, over the state
that also the clock and the codecs change: a file may change while it is read, and a
read may return less than was asked for.  The runs made are kept as history.

The output buffer is cleared by its allocation and by every round, so every run finds
it clear up to the size of its own input.  The parts of a file never grow, which is why
the end of a longer part before does no harm.

## Main definitions

* `Host` — files and memory.
* `Bench`, `Halt` — the state of a driver, and how it stops.
* `lzbenchMain`, `lzbenchJoin` — the drivers.
* `TestRun.Sound` — a run on a clear buffer, with genuine rounds.
* `drivers_sound` — every run of a driver is sound.
-/

namespace Lzbench

open Imperative

variable {σ : Type}

/-! ## The host -/

/-- The operating system and the C library.  A handle stands for an open file. -/
structure Host (σ : Type) where
  env : Env σ
  /-- `UTIL_isDirectory`. -/
  isDirectory : String → σ → Bool × σ
  /-- `UTIL_getTotalFileSize`. -/
  totalFileSize : List String → σ → ℕ × σ
  fopen : String → σ → Option ℕ × σ
  fclose : ℕ → σ → σ
  /-- `fseeko` to the end, `ftello` and `rewind`. -/
  ftello : ℕ → σ → ℤ × σ
  /-- `fseeko` from the start. -/
  fseeko : ℕ → ℕ → σ → σ
  /-- `fread` of a number of bytes. -/
  fread : ℕ → ℕ → σ → List UInt8 × σ
  fread_le : ∀ file n w, (fread file n w).1.length ≤ n
  rand : σ → ℕ × σ
  malloc : ℕ → σ → Option Mem × σ
  /-- `calloc`; whether there is a buffer, which is zero. -/
  calloc : ℕ → σ → Bool × σ

/-- `MIN_PAGE_SIZE`. -/
def minPageSize : ℕ := 4096

section Drivers

variable (host : Host σ)

/-- `alloc_and_touch`: the first byte of every page is set to zero, also where there is
no buffer. -/
def allocAndTouch (size : ℕ) (mustZero : Bool) (w : σ) : Except Stop (Option Mem × σ) :=
  let buf : Option Mem × σ :=
    if mustZero then
      let r := host.calloc size w
      (if r.1 then some fun _ => 0 else none, r.2)
    else host.malloc size w
  match buf.1 with
  | none => if size = 0 then .ok (none, buf.2) else .error .undefined
  | some m => .ok (some fun p => if p < size ∧ p % minPageSize = 0 then 0 else m p, buf.2)

/-! ## Runs -/

/-- A line a driver prints, other than a progress line. -/
inductive Line
  | header (textformat : TextFormat) (showSpeed : Bool)
  | row (cells : List Printf)
  | notFound (name : List Char) (param : Option (List Char))
  | useRecursive (name : String)
  | perror (name : String)
  | noMemory
  | noInput
  | tooLong
  | seeking (pos chunkSize insize : ℕ)

/-- A run as the history keeps it: its input, the output buffer it found, the same at
the start of every round, and what it recorded. -/
structure TestRun (σ : Type) where
  inbuf : Mem
  insize : ℕ
  compressOnly : Bool
  decomp : Mem
  entries : List Mem
  report : Option (Report σ)

/-- The state of a driver.  `tests` is history. -/
structure Bench (σ : Type) where
  params : LzbenchParams
  compbuf : Mem
  decomp : Mem
  printed : List Line
  world : σ
  tests : List (TestRun σ)

/-- How a driver stops before it returns, with the history. -/
structure Halt (σ : Type) where
  stop : Stop
  tests : List (TestRun σ)

/-- What the runs on one input have in common. -/
structure Input where
  fileSizes : List ℕ
  inbuf : Mem
  insize : ℕ

variable (fuel : ℕ)

/-- A call of `lzbench_test` with the parameters `params`. -/
def benchTest (input : Input) (comprsize : ℕ) (params : LzbenchParams) (desc : CompressorDesc σ)
    (level : ℤ) (param1 : ℕ) (s : Bench σ) : Except (Halt σ) (TestResult σ × Bench σ) :=
  let run := TestRun.mk input.inbuf input.insize params.compressOnly s.decomp
  match lzbenchTest host.env params input.fileSizes desc level input.inbuf input.insize
      (UInt64.ofNat comprsize) param1 fuel s.compbuf s.decomp s.world with
  | .error f => .error ⟨f.stop, s.tests ++ [run f.entries none]⟩
  | .ok res =>
    let entries := (res.report.map fun rep => rep.decompression.rounds.map Round.entry).getD []
    .ok (res, { s with
      compbuf := res.compbuf
      decomp := res.decomp
      printed := s.printed ++ [.row res.printed]
      world := res.world
      tests := s.tests ++ [run entries res.report] })

/-- The actions of the encoder list on an input. -/
def benchActions (input : Input) (comprsize : ℕ) : Actions σ (Bench σ) (Halt σ) where
  test desc level param1 s := do
    let r ← benchTest host fuel input comprsize s.params desc level param1 s
    .ok { r.2 with params := { r.2.params with results := r.1.results } }
  notFound name param s := { s with printed := s.printed ++ [.notFound name param] }
  hang s := ⟨.hang, s.tests⟩

/-- `encoder_list`, or the list of the first alias. -/
def encoderListOr (encoderList : Option String) : List Char :=
  (encoderList.getD (aliasDesc.head (by decide)).params).toList

/-- `params_memcpy`, a copy of which nothing is kept. -/
def memcpyParams (params : LzbenchParams) : LzbenchParams :=
  { params with
    cmintime := 0
    dmintime := 0
    cIters := 0
    dIters := 0
    cloopTime := defaultLoopTime
    dloopTime := defaultLoopTime }

/-- The run of the baseline, `comp_desc[0]`. -/
def benchMemcpy (wrappers : Wrappers σ) (input : Input) (s : Bench σ) :
    Except (Halt σ) (Bench σ) := do
  let r ← benchTest host fuel input input.insize (memcpyParams s.params)
    (compTable.head (by decide) |>.desc wrappers) 0 0 s
  .ok r.2

/-- The runs of the encoder list. -/
def benchEncoders (wrappers : Wrappers σ) (encoderList : Option String) (input : Input)
    (comprsize : ℕ) (s : Bench σ) : Except (Halt σ) (Bench σ) :=
  lzbenchTestWithParams (benchActions host fuel input comprsize) (compDesc wrappers) fuel
    (encoderListOr encoderList) s

/-! ## `lzbench_main` -/

/-- `fread` into a buffer of `size` bytes, at `pos`. -/
def freadInto (file n size pos : ℕ) (m : Mem) (w : σ) : Except Stop (ℕ × Mem × σ) :=
  let r := host.fread file n w
  if pos + r.1.length > size then .error .undefined
  else .ok (r.1.length, ((Patch.ofList r.1).shift pos).onto m, r.2)

/-- A stop outside the runs. -/
def halted {α : Type} (tests : List (TestRun σ)) (r : Except Stop α) : Except (Halt σ) α :=
  r.mapError fun e => ⟨e, tests⟩

/-- The name after its last backslash. -/
def fileName (name : String) : Text := ((utf8 name).splitOn 92).getLastD []

/-- The name that a part is given. -/
def partName (filename : Text) (i : ℤ) : Text := format (filename ++ utf8 s!" part {i}")

/-- The position and the number of the bytes to read: with `-R` one chunk at random. -/
def readRequest (params : LzbenchParams) (file realInsize insize : ℕ) (w : σ) :
    Except Stop ((ℕ × ℕ) × σ) :=
  if params.randomRead then
    if params.chunkSize < realInsize then
      if params.chunkSize = 0 then .error .undefined
      else
        let r := host.rand w
        let pos := r.1 % (realInsize / params.chunkSize) * params.chunkSize
        .ok ((pos, params.chunkSize), host.fseeko file pos r.2)
    else .ok ((0, realInsize), w)
  else .ok ((0, insize), w)

variable (wrappers : Wrappers σ) (encoderList : Option String)

/-- The parts of a file beyond the memory limit, each read over the one before, and counted by
an `int`. -/
def benchParts (file size comprsize : ℕ) (filename : Text) :
    ℕ → ℤ → ℕ → Mem → Bench σ → Except (Halt σ) (Bench σ)
  | 0, _, _, _, s => .error ⟨.hang, s.tests⟩
  | rounds + 1, i, insize, inbuf, s =>
    if insize > 0 then do
      let s ← benchEncoders host fuel wrappers encoderList ⟨[insize], inbuf, insize⟩ comprsize
        { s with params := { s.params with inFilename := partName filename i } }
      let r ← halted s.tests (freadInto host file insize size 0 inbuf s.world)
      benchParts file size comprsize filename rounds (toInt32 (i + 1)) r.1 r.2.1
        { s with world := r.2.2 }
    else .ok s

/-- The baseline, which is run on the first file only. -/
def benchBaseline (first : Bool) (input : Input) (s : Bench σ) : Except (Halt σ) (Bench σ) :=
  if first then
    benchMemcpy host fuel wrappers input
      { s with printed := s.printed ++ [.header s.params.textformat s.params.showSpeed] }
  else .ok s

/-- The runs on what was read of a file, and on the rest of it. -/
def benchRead (file realInsize size comprsize insize : ℕ) (inbuf : Mem) (s : Bench σ) :
    Except (Halt σ) (Bench σ) :=
  if s.params.memLimit ≠ 0 ∧ realInsize > s.params.memLimit then
    benchParts host fuel wrappers encoderList file size comprsize s.params.inFilename fuel 1 insize
      inbuf s
  else benchEncoders host fuel wrappers encoderList ⟨[insize], inbuf, insize⟩ comprsize s

/-- The lines printed when a request was made. -/
def requestLines (params : LzbenchParams) (request : ℕ × ℕ) : List Line :=
  if params.randomRead then [.seeking request.1 params.chunkSize request.2] else []

/-- One file, with its buffers allocated; `first` tells whether the baseline is run. -/
def benchFile (first : Bool) (file realInsize insize : ℕ) (inbuf : Mem) (s : Bench σ) :
    Except (Halt σ) (Bench σ) := do
  let comprsize := getCompressBound insize
  let size := addSize insize padSize
  let request ← halted s.tests (readRequest host s.params file realInsize insize s.world)
  let read ← halted s.tests (freadInto host file request.1.2 size 0 inbuf request.2)
  let s ← benchBaseline host fuel wrappers first ⟨[read.1], read.2.1, read.1⟩
    { s with printed := s.printed ++ requestLines s.params request.1, world := read.2.2 }
  let s ← benchRead host fuel wrappers encoderList file realInsize size comprsize read.1 read.2.1 s
  .ok { s with world := host.fclose file s.world }

/-- The body of the loop over the files.  The result tells whether there was enough
memory. -/
def mainFile (first : Bool) (name : String) (s : Bench σ) : Except (Halt σ) (Bool × Bench σ) :=
  let dir := host.isDirectory name s.world
  if dir.1 then
    .ok (true, { s with printed := s.printed ++ [.useRecursive name], world := dir.2 })
  else
    let opened := host.fopen name dir.2
    match opened.1 with
    | none => .ok (true, { s with printed := s.printed ++ [.perror name], world := opened.2 })
    | some file => do
      let told := host.ftello file opened.2
      let realInsize := toSize told.1
      let insize :=
        if s.params.memLimit ≠ 0 ∧ realInsize > s.params.memLimit then s.params.memLimit
        else realInsize
      let size := addSize insize padSize
      let inbuf ← halted s.tests (allocAndTouch host size false told.2)
      let compbuf ← halted s.tests (allocAndTouch host (getCompressBound insize) false inbuf.2)
      let decomp ← halted s.tests (allocAndTouch host size true compbuf.2)
      let s := { s with
        params := { s.params with inFilename := fileName name }
        world := decomp.2 }
      match inbuf.1, compbuf.1, decomp.1 with
      | some inbuf, some compbuf, some decomp => do
        let s ← benchFile host fuel wrappers encoderList first file realInsize insize inbuf
          { s with compbuf := compbuf, decomp := decomp }
        .ok (true, s)
      | _, _, _ => .ok (false, { s with printed := s.printed ++ [.noMemory] })

/-- The loop over the files; `first` tells whether the next one is the first. -/
def mainFiles : Bool → List String → Bench σ → Except (Halt σ) (ℤ × Bench σ)
  | _, [], s => .ok (0, s)
  | first, name :: rest, s => do
    let r ← mainFile host fuel wrappers encoderList first name s
    if r.1 then mainFiles false rest r.2 else .ok (1, r.2)

/-- `lzbench_main`. -/
def lzbenchMain (params : LzbenchParams) (inFileNames : List String) (w : σ) :
    Except (Halt σ) (ℤ × Bench σ) :=
  mainFiles host fuel wrappers encoderList true inFileNames
    ⟨params, fun _ => 0, fun _ => 0, [], w, []⟩

/-- The bytes for which the buffers are made. -/
def bufferSize (params : LzbenchParams) (realInsize : ℕ) : ℕ :=
  if params.memLimit ≠ 0 ∧ realInsize > params.memLimit then params.memLimit else realInsize

theorem bufferSize_le (params : LzbenchParams) (realInsize : ℕ) :
    bufferSize params realInsize ≤ realInsize := by
  rw [bufferSize]
  split <;> omega

/-! ## A file up to the first read -/

/-- How a file is begun. -/
inductive Opening (σ : Type)
  /-- A directory, or a file that cannot be opened. -/
  | skipped (s : Bench σ)
  | noMemory (s : Bench σ)
  | opened (file realInsize : ℕ) (inbuf : Mem) (s : Bench σ)

/-- A file up to the first read: its size is told, and its three buffers are allocated. -/
def openFile (name : String) (s : Bench σ) : Except (Halt σ) (Opening σ) :=
  let dir := host.isDirectory name s.world
  if dir.1 then
    .ok (.skipped { s with printed := s.printed ++ [.useRecursive name], world := dir.2 })
  else
    let opened := host.fopen name dir.2
    match opened.1 with
    | none => .ok (.skipped { s with printed := s.printed ++ [.perror name], world := opened.2 })
    | some file => do
      let told := host.ftello file opened.2
      let insize := bufferSize s.params (toSize told.1)
      let inbuf ← halted s.tests (allocAndTouch host (addSize insize padSize) false told.2)
      let compbuf ← halted s.tests (allocAndTouch host (getCompressBound insize) false inbuf.2)
      let decomp ← halted s.tests (allocAndTouch host (addSize insize padSize) true compbuf.2)
      let s := { s with
        params := { s.params with inFilename := fileName name }
        world := decomp.2 }
      match inbuf.1, compbuf.1, decomp.1 with
      | some inbuf, some compbuf, some decomp =>
        .ok (.opened file (toSize told.1) inbuf { s with compbuf := compbuf, decomp := decomp })
      | _, _, _ => .ok (.noMemory { s with printed := s.printed ++ [.noMemory] })

/-- The body of the loop over the files, from what its beginning came to. -/
theorem mainFile_eq_openFile (first : Bool) (name : String) (s : Bench σ) :
    mainFile host fuel wrappers encoderList first name s =
      (openFile host name s).bind fun
        | .skipped s => .ok (true, s)
        | .noMemory s => .ok (false, s)
        | .opened file realInsize inbuf s =>
          (benchFile host fuel wrappers encoderList first file realInsize
            (bufferSize s.params realInsize) inbuf s).map fun s => (true, s) := by
  simp only [mainFile, openFile, bufferSize]
  by_cases hdir : (host.isDirectory name s.world).1 = true
  · simp only [if_pos hdir]
    rfl
  simp only [if_neg hdir]
  cases (host.fopen name (host.isDirectory name s.world).2).1 with
  | none => rfl
  | some file =>
    simp only [bind]
    generalize host.ftello file (host.fopen name (host.isDirectory name s.world).2).2 = told
    generalize halted s.tests (allocAndTouch host _ false told.2) = inbuf
    cases inbuf with
    | error e => rfl
    | ok inbuf =>
      simp only [Except.bind]
      generalize halted s.tests (allocAndTouch host _ false inbuf.2) = compbuf
      cases compbuf with
      | error e => rfl
      | ok compbuf =>
        simp only
        generalize halted s.tests (allocAndTouch host _ true compbuf.2) = decomp
        cases decomp with
        | error e => rfl
        | ok decomp =>
          simp only
          cases inbuf.1 with
          | none => rfl
          | some inbuf =>
            cases compbuf.1 with
            | none => rfl
            | some compbuf =>
              cases decomp.1 with
              | none => rfl
              | some decomp =>
                simp only
                generalize benchFile host fuel wrappers encoderList first file _ _ _ _ = r
                cases r <;> rfl

/-- What the beginning of a file leaves: a message and no more, or the name in the parameters
and, where there is enough memory, the buffers. -/
theorem openFile_cases {name : String} {s : Bench σ} {r : Opening σ}
    (h : openFile host name s = .ok r) :
    (∃ l w, (l = .useRecursive name ∨ l = .perror name) ∧
        r = .skipped { s with printed := s.printed ++ [l], world := w }) ∨
      (∃ w, r = .noMemory { s with
        params := { s.params with inFilename := fileName name }
        printed := s.printed ++ [.noMemory]
        world := w }) ∨
      ∃ file realInsize inbuf compbuf decomp w, r = .opened file realInsize inbuf { s with
        params := { s.params with inFilename := fileName name }
        compbuf := compbuf
        decomp := decomp
        world := w } := by
  simp only [openFile] at h
  split at h
  · cases h
    exact Or.inl ⟨_, _, Or.inl rfl, rfl⟩
  split at h
  · cases h
    exact Or.inl ⟨_, _, Or.inr rfl, rfl⟩
  · obtain ⟨inbuf, -, h⟩ := bind_eq_ok.mp h
    obtain ⟨compbuf, -, h⟩ := bind_eq_ok.mp h
    obtain ⟨decomp, -, h⟩ := bind_eq_ok.mp h
    split at h
    · cases h
      exact Or.inr (Or.inr ⟨_, _, _, _, _, _, rfl⟩)
    · cases h
      exact Or.inr (Or.inl ⟨_, rfl⟩)

/-! ## `lzbench_join` -/

/-- The files read so far. -/
structure Joined (σ : Type) where
  inbuf : Mem
  inpos : ℕ
  fileSizes : List ℕ
  printed : List Line
  world : σ

/-- How the loop over the files ends early: the program stops, or the files have become
too long and it cleans up. -/
inductive JoinExit (σ : Type)
  | stop (e : Stop)
  | clean (s : Joined σ)

/-- The body of the loop over the files. -/
def joinFile (totalsize : ℕ) (s : Joined σ) (name : String) : Except (JoinExit σ) (Joined σ) :=
  let dir := host.isDirectory name s.world
  if dir.1 then .ok { s with printed := s.printed ++ [.useRecursive name], world := dir.2 }
  else
    let opened := host.fopen name dir.2
    match opened.1 with
    | none => .ok { s with printed := s.printed ++ [.perror name], world := opened.2 }
    | some file =>
      let told := host.ftello file opened.2
      let insize := toSize told.1
      if addSize s.inpos insize > totalsize then
        .error (.clean { s with printed := s.printed ++ [.tooLong], world := told.2 })
      else
        match freadInto host file insize (addSize totalsize padSize) s.inpos s.inbuf told.2 with
        | .error e => .error (.stop e)
        | .ok (insize, inbuf, w) =>
          .ok ⟨inbuf, s.inpos + insize, s.fileSizes ++ [insize], s.printed, host.fclose file w⟩

/-- The runs on the joined files. -/
def benchJoined (comprsize : ℕ) (input : Joined σ) (s : Bench σ) : Except (Halt σ) (Bench σ) := do
  let job : Input := ⟨input.fileSizes, input.inbuf, input.inpos⟩
  let text := format (utf8 s!"{toInt32 input.fileSizes.length} files")
  let s ← benchMemcpy host fuel wrappers job
    { s with
      params := { s.params with inFilename := text }
      printed := input.printed ++ [.header s.params.textformat s.params.showSpeed]
      world := input.world }
  benchEncoders host fuel wrappers encoderList job comprsize s

/-- `lzbench_join`. -/
def lzbenchJoin (params : LzbenchParams) (inFileNames : List String) (w : σ) :
    Except (Halt σ) (ℤ × Bench σ) := do
  let s : Bench σ := ⟨params, fun _ => 0, fun _ => 0, [], w, []⟩
  let total := host.totalFileSize inFileNames w
  let totalsize := total.1
  if totalsize = 0 then .ok (1, { s with printed := [.noInput], world := total.2 })
  else
    let size := addSize totalsize padSize
    let inbuf ← halted [] (allocAndTouch host size false total.2)
    let compbuf ← halted [] (allocAndTouch host (getCompressBound totalsize) false inbuf.2)
    let decomp ← halted [] (allocAndTouch host size true compbuf.2)
    match inbuf.1, compbuf.1, decomp.1 with
    | some inbuf, some compbuf, some decompbuf =>
      let s := { s with compbuf := compbuf, decomp := decompbuf }
      match inFileNames.foldlM (joinFile host totalsize) ⟨inbuf, 0, [], [], decomp.2⟩ with
      | .error (.stop e) => .error ⟨e, []⟩
      | .error (.clean j) => .ok (0, { s with printed := j.printed, world := j.world })
      | .ok j =>
        if j.fileSizes = [] then .ok (0, { s with printed := j.printed, world := j.world })
        else do
          let s ← benchJoined host fuel wrappers encoderList (getCompressBound totalsize) j s
          .ok (0, s)
    | _, _, _ => .ok (1, { s with printed := [.noMemory], world := decomp.2 })

/-- What the files were read into. -/
inductive Joining (σ : Type)
  /-- There is nothing to run. -/
  | ended (result : ℤ) (s : Bench σ)
  | joined (totalsize : ℕ) (input : Joined σ) (s : Bench σ)

/-- The files up to the first run. -/
def readJoined (params : LzbenchParams) (inFileNames : List String) (w : σ) :
    Except (Halt σ) (Joining σ) := do
  let s : Bench σ := ⟨params, fun _ => 0, fun _ => 0, [], w, []⟩
  let total := host.totalFileSize inFileNames w
  let totalsize := total.1
  if totalsize = 0 then .ok (.ended 1 { s with printed := [.noInput], world := total.2 })
  else
    let size := addSize totalsize padSize
    let inbuf ← halted [] (allocAndTouch host size false total.2)
    let compbuf ← halted [] (allocAndTouch host (getCompressBound totalsize) false inbuf.2)
    let decomp ← halted [] (allocAndTouch host size true compbuf.2)
    match inbuf.1, compbuf.1, decomp.1 with
    | some inbuf, some compbuf, some decompbuf =>
      let s := { s with compbuf := compbuf, decomp := decompbuf }
      match inFileNames.foldlM (joinFile host totalsize) ⟨inbuf, 0, [], [], decomp.2⟩ with
      | .error (.stop e) => .error ⟨e, []⟩
      | .error (.clean j) => .ok (.ended 0 { s with printed := j.printed, world := j.world })
      | .ok j =>
        if j.fileSizes = [] then
          .ok (.ended 0 { s with printed := j.printed, world := j.world })
        else .ok (.joined totalsize j s)
    | _, _, _ => .ok (.ended 1 { s with printed := [.noMemory], world := decomp.2 })

/-- `lzbench_join`, from what the files were read into. -/
theorem lzbenchJoin_eq_readJoined (params : LzbenchParams) (inFileNames : List String) (w : σ) :
    lzbenchJoin host fuel wrappers encoderList params inFileNames w =
      (readJoined host params inFileNames w).bind fun
        | .ended result s => .ok (result, s)
        | .joined totalsize input s =>
          (benchJoined host fuel wrappers encoderList (getCompressBound totalsize) input s).map
            fun s => (0, s) := by
  simp only [lzbenchJoin, readJoined, bind]
  by_cases hzero : (host.totalFileSize inFileNames w).1 = 0
  · simp only [if_pos hzero]
    rfl
  simp only [if_neg hzero]
  generalize host.totalFileSize inFileNames w = total
  generalize halted [] (allocAndTouch host _ false total.2) = inbuf
  cases inbuf with
  | error e => rfl
  | ok inbuf =>
    simp only [Except.bind]
    generalize halted [] (allocAndTouch host _ false inbuf.2) = compbuf
    cases compbuf with
    | error e => rfl
    | ok compbuf =>
      simp only
      generalize halted [] (allocAndTouch host _ true compbuf.2) = decomp
      cases decomp with
      | error e => rfl
      | ok decomp =>
        simp only
        cases inbuf.1 with
        | none => rfl
        | some inbuf =>
          cases compbuf.1 with
          | none => rfl
          | some compbuf =>
            cases decomp.1 with
            | none => rfl
            | some decompbuf =>
              simp only
              generalize inFileNames.foldlM (joinFile host total.1) _ = r
              match r with
              | .error (.stop e) => rfl
              | .error (.clean j) => rfl
              | .ok j =>
                by_cases hnone : j.fileSizes = []
                · simp only [if_pos hnone]
                · simp only [if_neg hnone]
                  generalize benchJoined host fuel wrappers encoderList _ j _ = run
                  cases run <;> rfl

end Drivers

/-! ## Every run is sound -/

/-- The run found the output buffer clear, so did each of its rounds, and where no error
was found every round is genuine. -/
structure TestRun.Sound (t : TestRun σ) : Prop where
  decomp_zero : t.decomp.Zeroed t.insize
  entries_zero : ∀ m ∈ t.entries, Mem.Zeroed m t.insize
  genuine : ∀ rep, t.report = some rep → t.compressOnly = false →
    rep.decompression.decompError = false →
      rep.decompression.rounds ≠ [] ∧ ∀ r ∈ rep.decompression.rounds, r.Genuine t.inbuf t.insize

/-- A run on an input of `insize` bytes may follow. -/
structure Bench.Ready (insize : ℕ) (s : Bench σ) : Prop where
  decomp_zero : s.decomp.Zeroed insize
  tests_sound : ∀ t ∈ s.tests, t.Sound

/-- The runs before the stop were sound. -/
def Halt.Sound (h : Halt σ) : Prop := ∀ t ∈ h.tests, t.Sound

theorem Bench.Ready.mono {insize insize' : ℕ} {s : Bench σ} (h : s.Ready insize)
    (hle : insize' ≤ insize) : s.Ready insize' :=
  ⟨h.decomp_zero.mono hle, h.tests_sound⟩

section Sound

variable {host : Host σ} {fuel : ℕ} {wrappers : Wrappers σ} {encoderList : Option String}

/-- One run. -/
theorem ends_benchTest {input : Input} {comprsize : ℕ} {params : LzbenchParams}
    {desc : CompressorDesc σ} {level : ℤ} {param1 : ℕ} {s : Bench σ}
    (hs : s.Ready input.insize) :
    Ends (fun r => Bench.Ready input.insize r.2) Halt.Sound
      (benchTest host fuel input comprsize params desc level param1 s) := by
  have hrule : Ends (Genuine params input.inbuf input.insize)
      (fun f => ∀ m ∈ f.entries, Mem.Zeroed m input.insize)
      (lzbenchTest host.env params input.fileSizes desc level input.inbuf input.insize
        (UInt64.ofNat comprsize) param1 fuel s.compbuf s.decomp s.world) :=
    ends_lzbenchTest_genuine hs.decomp_zero
  have hadd : ∀ t : TestRun σ, t.Sound → ∀ t' ∈ s.tests ++ [t], t'.Sound := by
    intro t ht t' ht'
    cases List.mem_append.mp ht' with
    | inl ht' =>
      exact hs.tests_sound t' ht'
    | inr ht' =>
      exact List.mem_singleton.mp ht' ▸ ht
  simp only [benchTest]
  split
  · rename_i f hrun
    refine (ends_error _ Halt.Sound _).mpr (hadd _ ⟨hs.decomp_zero, hrule.error f hrun, ?_⟩)
    simp
  · rename_i res hrun
    have hgenuine := hrule.ok res hrun
    refine (ends_ok _ Halt.Sound _).mpr ⟨hgenuine.decomp_zero, hadd _ ⟨hs.decomp_zero, ?_, ?_⟩⟩
    · cases hrep : res.report with
      | none => simp
      | some rep =>
        intro m hm
        obtain ⟨r, hr, rfl⟩ := List.mem_map.mp hm
        exact hgenuine.entries rep hrep r hr
    · exact hgenuine.rounds

/-- The baseline and the encoder list. -/
theorem ends_benchMemcpy {input : Input} {s : Bench σ} (hs : s.Ready input.insize) :
    Ends (Bench.Ready input.insize) Halt.Sound (benchMemcpy host fuel wrappers input s) :=
  (ends_benchTest hs).bind fun _ hr => (ends_ok _ Halt.Sound _).mpr hr

theorem ends_benchEncoders {input : Input} {comprsize : ℕ} {s : Bench σ}
    (hs : s.Ready input.insize) :
    Ends (Bench.Ready input.insize) Halt.Sound
      (benchEncoders host fuel wrappers encoderList input comprsize s) := by
  refine ends_lzbenchTestWithParams (fun desc _ level param1 s hs => ?_)
    (fun _ _ s hs => ⟨hs.decomp_zero, hs.tests_sound⟩) (fun s hs => hs.tests_sound) fuel _ hs
  refine (ends_benchTest hs).bind fun r hr => (ends_ok _ Halt.Sound _).mpr ?_
  exact ⟨hr.decomp_zero, hr.tests_sound⟩

theorem ends_benchBaseline {first : Bool} (input : Input) {s : Bench σ}
    (hs : s.Ready input.insize) :
    Ends (Bench.Ready input.insize) Halt.Sound
      (benchBaseline host fuel wrappers first input s) := by
  rw [benchBaseline]
  split
  · exact ends_benchMemcpy ⟨hs.decomp_zero, hs.tests_sound⟩
  · exact (ends_ok _ Halt.Sound _).mpr hs

/-- A step of a driver between runs. -/
theorem ends_halted {α : Type} {P : α → Prop} {tests : List (TestRun σ)}
    (htests : ∀ t ∈ tests, t.Sound) {r : Except Stop α} (hok : ∀ a, r = .ok a → P a) :
    Ends P Halt.Sound (halted tests r) := by
  cases r with
  | error e => exact (ends_error P Halt.Sound _).mpr htests
  | ok a => exact (ends_ok P Halt.Sound _).mpr (hok a rfl)

/-- A read returns no more than was asked for. -/
theorem freadInto_le {file n size pos : ℕ} {m : Mem} {w : σ} {r : ℕ × Mem × σ}
    (h : freadInto host file n size pos m w = .ok r) : r.1 ≤ n := by
  simp only [freadInto] at h
  split at h
  · cases h
  · cases h
    exact host.fread_le file n w

/-- The parts of a file: the next part is no longer than the one before, so what its
decoders may have left beyond it is not compared. -/
theorem ends_benchParts {file size comprsize : ℕ} {filename : Text} (rounds : ℕ) (i : ℤ)
    (insize : ℕ) (inbuf : Mem) {s : Bench σ} (hs : s.Ready insize) :
    Ends (fun s : Bench σ => ∀ t ∈ s.tests, t.Sound) Halt.Sound
      (benchParts host fuel wrappers encoderList file size comprsize filename rounds i insize inbuf
        s) := by
  induction rounds generalizing i insize inbuf s with
  | zero => exact (ends_error _ Halt.Sound _).mpr hs.tests_sound
  | succ rounds ih =>
    rw [benchParts]
    by_cases hpos : insize > 0
    · rw [if_pos hpos]
      have hready : Bench.Ready insize
          { s with params := { s.params with inFilename := partName filename i } } :=
        ⟨hs.decomp_zero, hs.tests_sound⟩
      apply (ends_benchEncoders hready).bind
      intro s' hs'
      apply (ends_halted hs'.tests_sound fun r hr => freadInto_le hr).bind
      intro r hle
      have hnext := hs'.mono hle
      exact ih (toInt32 (i + 1)) r.1 r.2.1 ⟨hnext.decomp_zero, hnext.tests_sound⟩
    · rw [if_neg hpos]
      exact (ends_ok _ Halt.Sound _).mpr hs.tests_sound

/-- A file with its buffers allocated. -/
theorem ends_benchFile {first : Bool} {file realInsize insize : ℕ} {inbuf : Mem} {s : Bench σ}
    (hs : ∀ n, s.Ready n) :
    Ends (fun s : Bench σ => ∀ t ∈ s.tests, t.Sound) Halt.Sound
      (benchFile host fuel wrappers encoderList first file realInsize insize inbuf s) := by
  have htests := (hs 0).tests_sound
  simp only [benchFile]
  apply Ends.bind (P := fun _ => True) (ends_halted htests fun _ _ => trivial)
  intro request _
  apply Ends.bind (P := fun _ => True) (ends_halted htests fun _ _ => trivial)
  intro read _
  refine Ends.bind (P := Bench.Ready read.1) ?baseline fun s' hs' => Ends.bind ?rest fun _ h =>
    (ends_ok _ Halt.Sound _).mpr h
  case baseline =>
    exact ends_benchBaseline ⟨[read.1], read.2.1, read.1⟩ ⟨(hs _).decomp_zero, htests⟩
  case rest =>
    rw [benchRead]
    split
    · exact ends_benchParts fuel 1 read.1 read.2.1 hs'
    · exact (ends_benchEncoders hs').mono (fun _ h => h.tests_sound) fun _ h => h

/-- The output buffer is allocated clear. -/
theorem ends_allocDecomp {tests : List (TestRun σ)} (htests : ∀ t ∈ tests, t.Sound) {size : ℕ}
    {w : σ} :
    Ends (fun r : Option Mem × σ => ∀ m, r.1 = some m → ∀ n, m.Zeroed n) Halt.Sound
      (halted tests (allocAndTouch host size true w)) := by
  apply ends_halted htests
  intro r hr m hm n
  simp only [allocAndTouch, if_true] at hr
  by_cases hbuf : (host.calloc size w).1 = true
  · simp only [hbuf, if_true] at hr
    cases hr
    cases hm
    exact fun p _ => ite_self _
  · simp only [hbuf] at hr
    by_cases hsize : size = 0
    · rw [if_pos hsize] at hr
      cases hr
      cases hm
    · rw [if_neg hsize] at hr
      cases hr

/-- One file of the loop. -/
theorem ends_mainFile {first : Bool} {name : String} {s : Bench σ}
    (hs : ∀ t ∈ s.tests, t.Sound) :
    Ends (fun r : Bool × Bench σ => ∀ t ∈ r.2.tests, t.Sound) Halt.Sound
      (mainFile host fuel wrappers encoderList first name s) := by
  simp only [mainFile]
  split
  · exact (ends_ok _ Halt.Sound _).mpr hs
  split
  · exact (ends_ok _ Halt.Sound _).mpr hs
  apply Ends.bind (P := fun _ => True) (ends_halted hs fun _ _ => trivial)
  intro inbuf _
  apply Ends.bind (P := fun _ => True) (ends_halted hs fun _ _ => trivial)
  intro compbuf _
  apply (ends_allocDecomp hs).bind
  intro decomp hzero
  split
  · rename_i hdecomp
    refine (ends_benchFile ?_).bind fun s' hs' => (ends_ok _ Halt.Sound _).mpr hs'
    exact fun n => ⟨hzero _ hdecomp n, hs⟩
  · exact (ends_ok _ Halt.Sound _).mpr hs

/-- The loop over the files. -/
theorem ends_mainFiles {first : Bool} {inFileNames : List String} {s : Bench σ}
    (hs : ∀ t ∈ s.tests, t.Sound) :
    Ends (fun r : ℤ × Bench σ => ∀ t ∈ r.2.tests, t.Sound) Halt.Sound
      (mainFiles host fuel wrappers encoderList first inFileNames s) := by
  induction inFileNames generalizing first s with
  | nil => exact (ends_ok _ Halt.Sound _).mpr hs
  | cons name rest ih =>
    rw [mainFiles]
    apply (ends_mainFile hs).bind
    intro r hr
    split
    · exact ih hr
    · exact (ends_ok _ Halt.Sound _).mpr hr

/-- The runs on the joined files. -/
theorem ends_benchJoined {comprsize : ℕ} {input : Joined σ} {s : Bench σ} (hs : ∀ n, s.Ready n) :
    Ends (fun s : Bench σ => ∀ t ∈ s.tests, t.Sound) Halt.Sound
      (benchJoined host fuel wrappers encoderList comprsize input s) := by
  rw [benchJoined]
  refine (ends_benchMemcpy ?_).bind fun s' hs' => ?_
  · exact ⟨(hs _).decomp_zero, (hs 0).tests_sound⟩
  · exact (ends_benchEncoders hs').mono (fun _ h => h.tests_sound) fun _ h => h

theorem ends_lzbenchJoin {params : LzbenchParams} {inFileNames : List String} {w : σ} :
    Ends (fun r : ℤ × Bench σ => ∀ t ∈ r.2.tests, t.Sound) Halt.Sound
      (lzbenchJoin host fuel wrappers encoderList params inFileNames w) := by
  have hnone : ∀ t ∈ ([] : List (TestRun σ)), t.Sound := by simp
  simp only [lzbenchJoin]
  split
  · exact (ends_ok _ Halt.Sound _).mpr hnone
  apply Ends.bind (P := fun _ => True) (ends_halted hnone fun _ _ => trivial)
  intro inbuf _
  apply Ends.bind (P := fun _ => True) (ends_halted hnone fun _ _ => trivial)
  intro compbuf _
  apply (ends_allocDecomp hnone).bind
  intro decomp hzero
  split
  · rename_i hdecomp
    split
    · exact (ends_error _ Halt.Sound _).mpr hnone
    · exact (ends_ok _ Halt.Sound _).mpr hnone
    · split
      · exact (ends_ok _ Halt.Sound _).mpr hnone
      · refine (ends_benchJoined ?_).bind fun s' hs' => (ends_ok _ Halt.Sound _).mpr hs'
        exact fun n => ⟨hzero _ hdecomp n, hnone⟩
  · exact (ends_ok _ Halt.Sound _).mpr hnone

end Sound

/-- Every run that a driver makes finds a clear buffer, as does each of its rounds, and a
row without an error has genuine rounds; this holds of the runs made before a stop as
well. -/
theorem drivers_sound (host : Host σ) (fuel : ℕ) (wrappers : Wrappers σ)
    (encoderList : Option String) (params : LzbenchParams) (inFileNames : List String) (w : σ) :
    Ends (fun r : ℤ × Bench σ => ∀ t ∈ r.2.tests, t.Sound) Halt.Sound
        (lzbenchMain host fuel wrappers encoderList params inFileNames w) ∧
      Ends (fun r : ℤ × Bench σ => ∀ t ∈ r.2.tests, t.Sound) Halt.Sound
        (lzbenchJoin host fuel wrappers encoderList params inFileNames w) := by
  refine ⟨ends_mainFiles ?_, ends_lzbenchJoin⟩
  intro t ht
  cases ht

end Lzbench
