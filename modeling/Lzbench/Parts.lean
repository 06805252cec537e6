import Lzbench.World

/-!
# The parts of a large file

With `-m` a file beyond the memory limit is benchmarked part by part.  The size of a part is
the number of bytes that was read for it, and is what the next read asks for, so only the last
part is shorter than the limit.

## Main definitions

* `Serves` — a file with a fixed content, read from a position that nothing else moves.
* `PartCall`, `benchPart` — a call of `lzbench_test_with_params`, and the read after it.
* `WholeFileOnce` — the calls that benchmark a file once, part by part.
* `mainFile_parts` — the calls made for a file.
-/

namespace Lzbench

open Imperative

variable {σ : Type}

/-- The name opens a file with the content given; `pos` is the position in it.  The clock, the
codecs and the allocator do not move it, and there is memory for the buffers. -/
structure Serves (host : Host σ) (wrappers : Wrappers σ) (name : String) (file : ℕ)
    (content : List UInt8) (pos : σ → ℕ) : Prop where
  not_directory : ∀ w, (host.isDirectory name w).1 = false
  fopen : ∀ w, (host.fopen name w).1 = some file
  ftello : ∀ w, (host.ftello file w).1 = content.length
  rewind : ∀ w, pos (host.ftello file w).2 = 0
  fread : ∀ n w, (host.fread file n w).1 = (content.drop (pos w)).take n
  advance : ∀ n w, pos (host.fread file n w).2 = pos w + (host.fread file n w).1.length
  malloc : ∀ n w, (host.malloc n w).1.isSome ∧ pos (host.malloc n w).2 = pos w
  calloc : ∀ n w, (host.calloc n w).1 = true ∧ pos (host.calloc n w).2 = pos w
  keeps : ∀ p, Keeps host wrappers fun w => pos w = p

/-- A call of `lzbench_test_with_params`, with the name in the parameters. -/
structure PartCall where
  inFilename : Text
  input : Input
  comprsize : ℕ

/-- A call for a part, and the read after it. -/
def benchPart (host : Host σ) (fuel : ℕ) (wrappers : Wrappers σ) (encoderList : Option String)
    (file : ℕ) (s : Bench σ) (call : PartCall) : Except (Halt σ) (Bench σ) := do
  let s ← benchEncoders host fuel wrappers encoderList call.input call.comprsize
    { s with params := { s.params with inFilename := call.inFilename } }
  .ok { s with world := (host.fread file call.input.insize s.world).2 }

/-- The calls benchmark the content once: parts that are not empty and within the limit, named
by their numbers from 1 on, each with its size as the only one, and room to compress it. -/
structure WholeFileOnce (content : List UInt8) (partName : ℕ → Text) (memLimit : ℕ)
    (calls : List PartCall) : Prop where
  content_eq : calls.flatMap (fun c => c.input.inbuf.bytes 0 c.input.insize) = content
  insize_pos : ∀ c ∈ calls, 0 < c.input.insize
  insize_le : ∀ c ∈ calls, c.input.insize ≤ memLimit
  named : ∀ i c, calls[i]? = some c → c.inFilename = partName (i + 1)
  fileSizes_eq : ∀ c ∈ calls, c.input.fileSizes = [c.input.insize]
  bound_le : ∀ c ∈ calls, getCompressBound c.input.insize ≤ c.comprsize

/-- The calls from the part number `i` on: `part` is in the buffer and `rest` not yet read. -/
def partCalls (filename : Text) (comprsize : ℕ) :
    ℕ → ℤ → List UInt8 → List UInt8 → Mem → List PartCall
  | 0, _, _, _, _ => []
  | rounds + 1, i, part, rest, inbuf =>
    if part = [] then []
    else
      ⟨partName filename i, ⟨[part.length], inbuf, part.length⟩, comprsize⟩ ::
        partCalls filename comprsize rounds (toInt32 (i + 1)) (rest.take part.length)
          (rest.drop part.length)
          (((Patch.ofList (rest.take part.length)).shift 0).onto inbuf)

section Calls

variable {filename : Text} {comprsize : ℕ}

/-- The next part is in the buffer when it has been read. -/
theorem bytes_next (rest : List UInt8) (n : ℕ) (inbuf : Mem) :
    (((Patch.ofList (rest.take n)).shift 0).onto inbuf).bytes 0 (rest.take n).length =
      rest.take n := by
  have happend := Patch.bytes_onto_ofList inbuf 0 (rest.take n)
  rw [Nat.zero_add] at happend
  exact happend

/-- The parts are the content, where there are rounds enough and a part is empty only at the
end. -/
theorem partCalls_content (rounds : ℕ) (i : ℤ) (part rest : List UInt8) (inbuf : Mem)
    (hrounds : rest.length < rounds) (hend : part = [] → rest = [])
    (hbytes : inbuf.bytes 0 part.length = part) :
    (partCalls filename comprsize rounds i part rest inbuf).flatMap
      (fun c => c.input.inbuf.bytes 0 c.input.insize) = part ++ rest := by
  induction rounds generalizing i part rest inbuf with
  | zero => omega
  | succ rounds ih =>
    rw [partCalls]
    by_cases hpart : part = []
    · rw [if_pos hpart, hpart, hend hpart]
      rfl
    · have hlen := List.length_pos_iff.mpr hpart
      rw [if_neg hpart, List.flatMap_cons, hbytes]
      congr 1
      by_cases hrest : rest = []
      · rw [hrest, List.take_nil, List.drop_nil]
        cases rounds <;> simp [partCalls]
      · have hpos := List.length_pos_iff.mpr hrest
        rw [ih (toInt32 (i + 1)) (rest.take part.length) (rest.drop part.length) _
          (by rw [List.length_drop]; omega) (fun hnil => ?_) (bytes_next rest _ inbuf)]
        · exact List.take_append_drop _ _
        · rw [List.take_eq_nil_iff] at hnil
          exact absurd hnil (by simp [hpart, hrest])

/-- What holds of every call for a part of at most `limit` bytes. -/
theorem partCalls_all {p : PartCall → Prop} {limit : ℕ}
    (hp : ∀ (i : ℤ) (part : List UInt8) inbuf, part ≠ [] → part.length ≤ limit →
      p ⟨partName filename i, ⟨[part.length], inbuf, part.length⟩, comprsize⟩)
    (rounds : ℕ) (i : ℤ) (part rest : List UInt8) (inbuf : Mem) (hpart : part.length ≤ limit) :
    ∀ c ∈ partCalls filename comprsize rounds i part rest inbuf, p c := by
  induction rounds generalizing i part rest inbuf with
  | zero => simp [partCalls]
  | succ rounds ih =>
    rw [partCalls]
    by_cases hnil : part = []
    · simp [hnil]
    · rw [if_neg hnil, List.forall_mem_cons]
      refine ⟨hp i part inbuf hnil hpart, ih _ _ _ _ ?_⟩
      exact (List.length_take_le _ _).trans hpart

/-- The calls are numbered by the `int`. -/
theorem partCalls_named (rounds : ℕ) {i : ℤ} (hi : toInt32 i = i) (part rest : List UInt8)
    (inbuf : Mem) (k : ℕ) (c : PartCall)
    (h : (partCalls filename comprsize rounds i part rest inbuf)[k]? = some c) :
    c.inFilename = partName filename (toInt32 (i + k)) := by
  induction rounds generalizing i part rest inbuf k with
  | zero => simp [partCalls] at h
  | succ rounds ih =>
    rw [partCalls] at h
    by_cases hnil : part = []
    · simp [hnil] at h
    · rw [if_neg hnil] at h
      cases k with
      | zero =>
        obtain rfl := Option.some.inj h
        rw [Nat.cast_zero, add_zero, hi]
      | succ k =>
        have hnext := ih (toInt32_toInt32 _) _ _ _ _ h
        rw [hnext, toInt32_add, Nat.cast_succ, add_assoc, add_comm 1]

end Calls

section Run

variable {host : Host σ} {fuel : ℕ} {wrappers : Wrappers σ} {encoderList : Option String}
  {name : String} {file : ℕ} {content : List UInt8} {pos : σ → ℕ}

/-- A read at the position of the file, into a buffer with room for it. -/
theorem Serves.freadInto (h : Serves host wrappers name file content pos) {n size : ℕ} {m : Mem}
    {w : σ} (hsize : n ≤ size) :
    freadInto host file n size 0 m w =
      .ok (((content.drop (pos w)).take n).length,
        ((Patch.ofList ((content.drop (pos w)).take n)).shift 0).onto m,
        (host.fread file n w).2) := by
  have hle := (List.length_take_le n (content.drop (pos w))).trans hsize
  simp only [Lzbench.freadInto, h.fread, Nat.zero_add]
  exact if_neg (by omega)

theorem Serves.drop_advance (h : Serves host wrappers name file content pos) (n : ℕ) (w : σ) :
    content.drop (pos (host.fread file n w).2) = (content.drop (pos w)).drop n := by
  rw [h.advance, h.fread, ← List.drop_drop, List.length_take]
  rcases le_total n (content.drop (pos w)).length with hle | hle
  · rw [Nat.min_eq_left hle]
  · rw [Nat.min_eq_right hle, List.drop_length, List.drop_eq_nil_of_le hle]

/-- The loop over the parts makes the calls, and ends. -/
theorem benchParts_eq (h : Serves host wrappers name file content pos) {size comprsize : ℕ}
    {filename : Text} (rounds : ℕ) (i : ℤ) (part : List UInt8) (inbuf : Mem) (s : Bench σ)
    (hrounds : part.length + (content.drop (pos s.world)).length < rounds)
    (hpart : part.length ≤ size) :
    benchParts host fuel wrappers encoderList file size comprsize filename rounds i part.length
        inbuf s =
      (partCalls filename comprsize rounds i part (content.drop (pos s.world)) inbuf).foldlM
        (benchPart host fuel wrappers encoderList file) s := by
  induction rounds generalizing i part inbuf s with
  | zero => omega
  | succ rounds ih =>
    rw [benchParts, partCalls]
    by_cases hnil : part = []
    · rw [if_pos hnil, if_neg (by simp [hnil])]
      rfl
    · have hpos := List.length_pos_iff.mpr hnil
      rw [if_neg hnil, if_pos hpos, List.foldlM_cons, benchPart]
      have hkeeps : Ends (fun t : Bench σ => pos t.world = pos s.world) (fun _ => True)
          (benchEncoders host fuel wrappers encoderList ⟨[part.length], inbuf, part.length⟩
            comprsize
            { s with params := { s.params with inFilename := partName filename i } }) :=
        ends_benchEncoders_keeps (h.keeps (pos s.world)) rfl
      cases hrun : benchEncoders host fuel wrappers encoderList
          ⟨[part.length], inbuf, part.length⟩ comprsize
          { s with params := { s.params with inFilename := partName filename i } } with
      | error e => rfl
      | ok t =>
        have hworld := hkeeps.ok t hrun
        simp only [bind, Except.bind, h.freadInto hpart, halted, Except.mapError, hworld]
        have hdrop : content.drop (pos (host.fread file part.length t.world).2) =
            (content.drop (pos s.world)).drop part.length := by rw [h.drop_advance, hworld]
        have hlen := congrArg List.length
          (List.take_append_drop part.length (content.drop (pos s.world)))
        rw [List.length_append] at hlen
        have hnext := ih (toInt32 (i + 1)) ((content.drop (pos s.world)).take part.length)
          (((Patch.ofList ((content.drop (pos s.world)).take part.length)).shift 0).onto inbuf)
          { t with world := (host.fread file part.length t.world).2 }
          (by rw [hdrop, hlen]; omega)
          ((List.length_take_le _ _).trans hpart)
        rw [hdrop] at hnext
        exact hnext

theorem benchTest_params {input : Input} {comprsize : ℕ} {params : LzbenchParams}
    {desc : CompressorDesc σ} {level : ℤ} {param1 : ℕ} {s : Bench σ} {r : TestResult σ × Bench σ}
    (h : benchTest host fuel input comprsize params desc level param1 s = .ok r) :
    r.2.params = s.params := by
  simp only [benchTest] at h
  split at h
  · cases h
  · obtain rfl := Except.ok.inj h
    rfl

/-- The baseline leaves the parameters. -/
theorem benchBaseline_params {first : Bool} {input : Input} {s t : Bench σ}
    (h : benchBaseline host fuel wrappers first input s = .ok t) : t.params = s.params := by
  rw [benchBaseline] at h
  split at h
  · simp only [benchMemcpy] at h
    obtain ⟨r, hrun, h⟩ := bind_eq_ok.mp h
    obtain rfl := Except.ok.inj h
    exact (benchTest_params hrun :)
  · obtain rfl := Except.ok.inj h
    rfl

theorem ends_benchBaseline_keeps {P : σ → Prop} (h : Keeps host wrappers P) (first : Bool)
    (input : Input) {s : Bench σ} (hs : P s.world) :
    Ends (fun t : Bench σ => P t.world) (fun _ => True)
      (benchBaseline host fuel wrappers first input s) := by
  rw [benchBaseline]
  split
  · exact ends_benchMemcpy_keeps h hs
  · exact (ends_ok _ _ _).mpr hs

/-- A buffer that is asked for is there, and the position stays. -/
theorem Serves.allocAndTouch (h : Serves host wrappers name file content pos) (size : ℕ)
    (mustZero : Bool) (w : σ) :
    ∃ m w', allocAndTouch host size mustZero w = .ok (some m, w') ∧ pos w' = pos w := by
  cases mustZero with
  | false =>
    obtain ⟨m, hm⟩ := Option.isSome_iff_exists.mp (h.malloc size w).1
    exact ⟨fun p => if p < size ∧ p % minPageSize = 0 then 0 else m p, _,
      by simp [Lzbench.allocAndTouch, hm], (h.malloc size w).2⟩
  | true =>
    exact ⟨fun p => if p < size ∧ p % minPageSize = 0 then 0 else 0, _,
      by simp [Lzbench.allocAndTouch, (h.calloc size w).1], (h.calloc size w).2⟩

/-- The calls for the parts, from the first read on. -/
theorem wholeFileOnce_partCalls {filename : Text} {memLimit : ℕ} (hlimit : 0 < memLimit)
    (hlt : memLimit < content.length) (hsize : content.length < 2 ^ 63)
    (hfuel : content.length < fuel) (inbuf : Mem)
    (hbytes : inbuf.bytes 0 (content.take memLimit).length = content.take memLimit) :
    WholeFileOnce content (fun i => partName filename (toInt32 i)) memLimit
      (partCalls filename (getCompressBound memLimit) fuel 1 (content.take memLimit)
        (content.drop memLimit) inbuf) := by
  have hlen : (content.take memLimit).length ≤ memLimit := List.length_take_le _ _
  have hfits : BoundFits memLimit := boundFits_of_le_ptrdiffMax (by simp only [ptrdiffMax]; omega)
  refine ⟨?_, ?_, ?_, ?_, ?_, ?_⟩
  · rw [partCalls_content _ _ _ _ _ (by rw [List.length_drop]; omega) ?_ hbytes,
      List.take_append_drop]
    intro hnil
    rw [List.take_eq_nil_iff] at hnil
    rcases hnil with hzero | hnil
    · omega
    · rw [hnil, List.drop_nil]
  · exact partCalls_all (fun _ part _ hpart _ => List.length_pos_iff.mpr hpart) _ _ _ _ _ hlen
  · exact partCalls_all (fun _ part _ _ hpart => hpart) _ _ _ _ _ hlen
  · intro i c hc
    rw [partCalls_named _ (i := 1) (by decide) _ _ _ _ _ hc, Nat.cast_succ, add_comm]
  · exact partCalls_all (fun _ part _ _ _ => rfl) _ _ _ _ _ hlen
  · refine partCalls_all (fun _ part _ _ hpart => ?_) _ _ _ _ _ hlen
    simp only
    rw [getCompressBound_of_fits hfits, getCompressBound_of_fits (hfits.mono hpart)]
    omega

/-- The baseline, the calls for the parts, and the end of the file. -/
def baselineThenParts (host : Host σ) (fuel : ℕ) (wrappers : Wrappers σ)
    (encoderList : Option String) (first : Bool) (file : ℕ) (input : Input) (calls : List PartCall)
    (s : Bench σ) : Except (Halt σ) (Bench σ) := do
  let s ← benchBaseline host fuel wrappers first input s
  let s ← calls.foldlM (benchPart host fuel wrappers encoderList file) s
  .ok { s with world := host.fclose file s.world }

variable (encoderList) in
/-- What is done for a file with its buffers allocated. -/
theorem benchFile_eq (h : Serves host wrappers name file content pos) (first : Bool)
    (inbuf : Mem) (s : Bench σ) (hpos : pos s.world = 0) (hrandom : s.params.randomRead = false)
    (hlimit : 0 < s.params.memLimit) (hlt : s.params.memLimit < content.length)
    (hsize : content.length < 2 ^ 63) (hfuel : content.length < fuel) :
    ∃ m t, m.bytes 0 (content.take s.params.memLimit).length = content.take s.params.memLimit ∧
      benchFile host fuel wrappers encoderList first file content.length s.params.memLimit inbuf s =
        baselineThenParts host fuel wrappers encoderList first file
          ⟨[(content.take s.params.memLimit).length], m, (content.take s.params.memLimit).length⟩
          (partCalls s.params.inFilename (getCompressBound s.params.memLimit) fuel 1
            (content.take s.params.memLimit) (content.drop s.params.memLimit) m) t := by
  have hroom : s.params.memLimit ≤ addSize s.params.memLimit padSize := by
    rw [addSize_of_lt (by simp only [padSize]; omega)]
    omega
  have hrequest : readRequest host s.params file content.length s.params.memLimit s.world =
      .ok ((0, s.params.memLimit), s.world) := by
    simp [readRequest, hrandom]
  have hread := h.freadInto (m := inbuf) (w := s.world) hroom
  have hrest := h.drop_advance s.params.memLimit s.world
  rw [hpos, List.drop_zero] at hread hrest
  refine ⟨((Patch.ofList (content.take s.params.memLimit)).shift 0).onto inbuf,
    { s with
      printed := s.printed ++ requestLines s.params (0, s.params.memLimit)
      world := (host.fread file s.params.memLimit s.world).2 },
    bytes_next content s.params.memLimit inbuf, ?_⟩
  simp only [benchFile, baselineThenParts, hrequest, hread, halted, Except.mapError, bind,
    Except.bind]
  cases hbase : benchBaseline host fuel wrappers first
      ⟨[(content.take s.params.memLimit).length],
        ((Patch.ofList (content.take s.params.memLimit)).shift 0).onto inbuf,
        (content.take s.params.memLimit).length⟩
      { s with
        printed := s.printed ++ requestLines s.params (0, s.params.memLimit)
        world := (host.fread file s.params.memLimit s.world).2 } with
  | error e => rfl
  | ok t =>
    have hparams : t.params = s.params := (benchBaseline_params hbase :)
    have hworld : pos t.world = pos (host.fread file s.params.memLimit s.world).2 :=
      (ends_benchBaseline_keeps (h.keeps _) first _ rfl).ok t hbase
    have hlarge : s.params.memLimit ≠ 0 ∧ content.length > s.params.memLimit := ⟨by omega, hlt⟩
    have hleft : content.drop (pos t.world) = content.drop s.params.memLimit := by
      rw [hworld, hrest]
    simp only [benchRead, hparams, if_pos hlarge]
    rw [benchParts_eq h fuel 1 (content.take s.params.memLimit) _ t ?_
      ((List.length_take_le _ _).trans hroom), hleft]
    rw [hleft, ← List.length_append, List.take_append_drop]
    exact hfuel

/-- The file is opened, and there are buffers for it. -/
theorem Serves.openFile (h : Serves host wrappers name file content pos) (s : Bench σ)
    (hsize : content.length < 2 ^ 64) :
    ∃ inbuf compbuf decomp w, pos w = 0 ∧
      openFile host name s = .ok (.opened file content.length inbuf
        ⟨{ s.params with inFilename := fileName name }, compbuf, decomp, s.printed, w,
          s.tests⟩) := by
  have hreal : toSize (content.length : ℤ) = content.length := toSize_ofNat hsize
  simp only [Lzbench.openFile, h.not_directory, Bool.false_eq_true, if_false, h.fopen, h.ftello,
    hreal]
  obtain ⟨inbuf, w₁, hinbuf, hpos₁⟩ := h.allocAndTouch
    (addSize (bufferSize s.params content.length) padSize) false
    (host.ftello file (host.fopen name (host.isDirectory name s.world).2).2).2
  rw [h.rewind] at hpos₁
  obtain ⟨compbuf, w₂, hcompbuf, hpos₂⟩ := h.allocAndTouch
    (getCompressBound (bufferSize s.params content.length)) false w₁
  obtain ⟨decomp, w₃, hdecomp, hpos₃⟩ := h.allocAndTouch
    (addSize (bufferSize s.params content.length) padSize) true w₂
  refine ⟨inbuf, compbuf, decomp, w₃, hpos₃.trans (hpos₂.trans hpos₁), ?_⟩
  simp only [hinbuf, hcompbuf, hdecomp, halted, Except.mapError, bind, Except.bind]

variable (fuel encoderList) in
/-- The same for a file of the loop. -/
theorem mainFile_eq (h : Serves host wrappers name file content pos) (first : Bool) (s : Bench σ)
    (hrandom : s.params.randomRead = false) (hlimit : 0 < s.params.memLimit)
    (hlt : s.params.memLimit < content.length) (hsize : content.length < 2 ^ 63)
    (hfuel : content.length < fuel) :
    ∃ m t, m.bytes 0 (content.take s.params.memLimit).length = content.take s.params.memLimit ∧
      mainFile host fuel wrappers encoderList first name s =
        (baselineThenParts host fuel wrappers encoderList first file
          ⟨[(content.take s.params.memLimit).length], m, (content.take s.params.memLimit).length⟩
          (partCalls (fileName name) (getCompressBound s.params.memLimit) fuel 1
            (content.take s.params.memLimit) (content.drop s.params.memLimit) m) t).map
          fun t => (true, t) := by
  obtain ⟨inbuf, compbuf, decomp, w, hpos, hopen⟩ := h.openFile s (by omega)
  obtain ⟨m, t, hbytes, hfile⟩ := benchFile_eq encoderList h first inbuf
    ⟨{ s.params with inFilename := fileName name }, compbuf, decomp, s.printed, w, s.tests⟩
    hpos hrandom hlimit hlt hsize hfuel
  refine ⟨m, t, hbytes, ?_⟩
  rw [mainFile_eq_openFile, hopen, Except.bind]
  have hbuffer : bufferSize { s.params with inFilename := fileName name } content.length =
      s.params.memLimit := if_pos ⟨hlimit.ne', hlt⟩
  simp only [hbuffer, hfile]

end Run

/-- A file beyond the memory limit is benchmarked once, part by part: after the baseline the
calls are made for its parts, which an `int` numbers. -/
theorem mainFile_parts (host : Host σ) (fuel : ℕ) (wrappers : Wrappers σ)
    (encoderList : Option String) {name : String} {file : ℕ} {content : List UInt8} {pos : σ → ℕ}
    (h : Serves host wrappers name file content pos) (first : Bool) (s : Bench σ)
    (hrandom : s.params.randomRead = false) (hlimit : 0 < s.params.memLimit)
    (hlt : s.params.memLimit < content.length) (hsize : content.length < 2 ^ 63)
    (hfuel : content.length < fuel) :
    ∃ calls input t, WholeFileOnce content (fun i => partName (fileName name) (toInt32 i))
        s.params.memLimit calls ∧
      mainFile host fuel wrappers encoderList first name s =
        (baselineThenParts host fuel wrappers encoderList first file input calls t).map
          fun t => (true, t) := by
  obtain ⟨m, t, hbytes, hfile⟩ :=
    mainFile_eq fuel encoderList h first s hrandom hlimit hlt hsize hfuel
  exact ⟨_, _, t, wholeFileOnce_partCalls hlimit hlt hsize hfuel m hbytes, hfile⟩

/-- Any name opens the content; the world is the position in it, and a clock that goes on by a
second whenever it is read. -/
def contentHost (content : List UInt8) : Host (ℕ × ℕ) where
  env := ⟨fun w => (w.2, (w.1, w.2 + 1000000000)), id, 0⟩
  isDirectory _ w := (false, w)
  totalFileSize _ w := (content.length, w)
  fopen _ w := (some 0, w)
  fclose _ w := w
  ftello _ w := (content.length, (0, w.2))
  fseeko _ p w := (p, w.2)
  fread _ n w := ((content.drop w.1).take n, (w.1 + ((content.drop w.1).take n).length, w.2))
  fread_le _ n _ := List.length_take_le n _
  rand w := (0, w)
  malloc _ w := (some fun _ => 0, w)
  calloc _ w := (true, w)

/-- Every codec stores raw. -/
def rawWrappers : Wrappers σ where
  code _ := some lzbenchReturn0
  init _ := none
  deinit _ := none

theorem serves_contentHost (content : List UInt8) (name : String) :
    Serves (contentHost content) rawWrappers name 0 content Prod.fst where
  not_directory _ := rfl
  fopen _ := rfl
  ftello _ := rfl
  rewind _ := rfl
  fread _ _ := rfl
  advance _ _ := rfl
  malloc _ _ := ⟨rfl, rfl⟩
  calloc _ _ := ⟨rfl, rfl⟩
  keeps _ := by
    refine ⟨⟨fun _ h => h, fun _ h => h⟩, fun d hd => ?_⟩
    obtain ⟨e, -, rfl⟩ := List.mem_map.mp hd
    refine ⟨fun c hc => ?_, fun c hc => ?_, fun f hf => ?_, fun f hf => ?_⟩
    · obtain rfl := Option.some.inj hc
      exact fun _ _ h => h
    · obtain rfl := Option.some.inj hc
      exact fun _ _ h => h
    · obtain ⟨_, -, hnone⟩ := Option.bind_eq_some_iff.mp hf
      cases hnone
    · obtain ⟨_, -, hnone⟩ := Option.bind_eq_some_iff.mp hf
      cases hnone

/-- A driver that has done nothing, with a memory limit. -/
def limitedBench (memLimit : ℕ) : Bench (ℕ × ℕ) :=
  ⟨{ defaultParams with memLimit := memLimit }, fun _ => 0, fun _ => 0, [], (0, 0), []⟩

/-- Five bytes in parts of two, with the names that stand in the rows. -/
theorem mainFile_parts_five :
    ∃ calls input t u,
      WholeFileOnce [1, 2, 3, 4, 5] (fun i => partName (fileName "data") (toInt32 i)) 2 calls ∧
      mainFile (contentHost [1, 2, 3, 4, 5]) 6 rawWrappers (some "lz4") true "data"
          (limitedBench 2) =
        (baselineThenParts (contentHost [1, 2, 3, 4, 5]) 6 rawWrappers (some "lz4") true 0 input
          calls t).map (fun t => (true, t)) ∧
      mainFile (contentHost [1, 2, 3, 4, 5]) 6 rawWrappers (some "lz4") true "data"
          (limitedBench 2) = .ok (true, u) ∧
      u.tests.filterMap (fun t => t.report.map fun rep => rep.row.col6_filename) =
        [utf8 "data", utf8 "data part 1", utf8 "data part 2", utf8 "data part 3"] := by
  have hrun : ∃ u, mainFile (contentHost [1, 2, 3, 4, 5]) 6 rawWrappers (some "lz4") true "data"
      (limitedBench 2) = .ok (true, u) ∧
      u.tests.filterMap (fun t => t.report.map fun rep => rep.row.col6_filename) =
        [utf8 "data", utf8 "data part 1", utf8 "data part 2", utf8 "data part 3"] :=
    ⟨_, rfl, rfl⟩
  obtain ⟨u, hrun, hrows⟩ := hrun
  obtain ⟨calls, input, t, honce, hcalls⟩ := mainFile_parts (contentHost [1, 2, 3, 4, 5]) 6
    rawWrappers (some "lz4") (serves_contentHost _ "data") true (limitedBench 2) rfl (by decide)
    (by decide) (by decide) (by decide)
  exact ⟨calls, input, t, u, honce, hcalls, hrun, hrows⟩

/-- An encoder list with a name that no compressor has is read without a run. -/
theorem benchEncoders_unknown (host : Host σ) (fuel : ℕ) (wrappers : Wrappers σ) (input : Input)
    (comprsize : ℕ) (s : Bench σ) :
    benchEncoders host (fuel + 1) wrappers (some "x") input comprsize s =
      .ok { s with printed := s.printed ++ [.notFound ['x'] none] } := by
  have hfind : ((compDesc wrappers).drop 1).find? (fun d => istrcmp d.name.toList ['x'] = 0) =
      none := by
    have hnames : ∀ e ∈ compTable.drop 1, ¬ istrcmp e.name.toList ['x'] = 0 := by decide
    rw [compDesc, ← List.map_drop, List.find?_map, List.find?_eq_none.mpr, Option.map_none]
    intro e he
    exact fun h => hnames e he (of_decide_eq_true h)
  have halias : aliasDesc.find? (fun a => istrcmp ['x'] a.name.toList = 0) = none := by decide
  have hslash : split ['x'] '/' = [['x']] := by decide
  have hcomma : split ['x'] ',' = [['x']] := by decide
  have hlist : encoderListOr (some "x") = ['x'] := rfl
  simp only [benchEncoders, hlist, lzbenchTestWithParams, hslash, List.foldlM_cons, halias, hcomma,
    testName, testParam, hfind]
  rfl

/-- Parts without a run leave the name of the last one. -/
theorem foldlM_benchPart_unknown (host : Host σ) (fuel : ℕ) (wrappers : Wrappers σ) (file : ℕ)
    (calls : List PartCall) (s : Bench σ) :
    ∃ t, calls.foldlM (benchPart host (fuel + 1) wrappers (some "x") file) s = .ok t ∧
      ∀ c, calls.getLast? = some c → t.params.inFilename = c.inFilename := by
  induction calls generalizing s with
  | nil => exact ⟨s, rfl, fun _ h => nomatch h⟩
  | cons call rest ih =>
    rw [List.foldlM_cons, benchPart, benchEncoders_unknown]
    obtain ⟨t, hrun, hlast⟩ := ih
      { s with
        params := { s.params with inFilename := call.inFilename }
        printed := s.printed ++ [.notFound ['x'] none]
        world := (host.fread file call.input.insize s.world).2 }
    refine ⟨t, hrun, fun c hc => ?_⟩
    cases rest with
    | nil =>
      obtain rfl := Option.some.inj hc
      obtain rfl := Except.ok.inj hrun
      rfl
    | cons next rest => exact hlast c (by rwa [List.getLast?_cons_cons] at hc)

theorem baselineThenParts_unknown (host : Host σ) (fuel : ℕ) (wrappers : Wrappers σ) (file : ℕ)
    (input : Input) (calls : List PartCall) (s : Bench σ) :
    ∃ t, baselineThenParts host (fuel + 1) wrappers (some "x") false file input calls s = .ok t ∧
      ∀ c, calls.getLast? = some c → t.params.inFilename = c.inFilename := by
  obtain ⟨t, hrun, hlast⟩ := foldlM_benchPart_unknown host fuel wrappers file calls s
  refine ⟨{ t with world := host.fclose file t.world }, ?_, hlast⟩
  simp only [baselineThenParts, benchBaseline, Bool.false_eq_true, if_false, bind, Except.bind,
    hrun]

theorem length_partName_le (filename : Text) (i : ℤ) : (partName filename i).length ≤ 1023 :=
  List.length_take_le _ _

/-- A name of 1024 bytes is cut before the number of a part. -/
theorem not_wholeFileOnce_of_length {name : String} (hlong : (fileName name).length = 1024) :
    ¬ ∃ calls input t,
      WholeFileOnce [1, 2] (fun i => fileName name ++ utf8 s!" part {i}") 1 calls ∧
      mainFile (contentHost [1, 2]) 3 rawWrappers (some "x") false name (limitedBench 1) =
        (baselineThenParts (contentHost [1, 2]) 3 rawWrappers (some "x") false 0 input calls t).map
          fun t => (true, t) := by
  rintro ⟨calls, input, t, honce, hrun⟩
  obtain ⟨m, t', -, hfile⟩ := mainFile_eq 3 (some "x") (serves_contentHost [1, 2] name) false
    (limitedBench 1) rfl (by decide) (by decide) (by decide) (by decide)
  obtain ⟨u', hu', hlast'⟩ := baselineThenParts_unknown (contentHost [1, 2]) 2 rawWrappers 0
    ⟨[1], m, 1⟩ (partCalls (fileName name) (getCompressBound 1) 3 1 [1] [2] m) t'
  obtain ⟨u, hu, hlast⟩ := baselineThenParts_unknown (contentHost [1, 2]) 2 rawWrappers 0 input
    calls t
  have hsame : u' = u := by
    rw [hfile, hu] at hrun
    have hleft : (Except.ok u' : Except (Halt (ℕ × ℕ)) (Bench (ℕ × ℕ))).map (fun t => (true, t)) =
        (Except.ok u).map fun t => (true, t) := hu' ▸ hrun
    exact (Prod.mk.inj (Except.ok.inj hleft)).2
  -- the first name was cut, the second has the number of the part behind the 1024 bytes
  have hcalls : partCalls (fileName name) (getCompressBound 1) 3 1 [1] [2] m ≠ [] := by
    simp [partCalls]
  have hshort : u'.params.inFilename.length ≤ 1023 := by
    rw [hlast' _ (List.getLast?_eq_some_getLast hcalls)]
    have hpart : ([1] : List UInt8).length ≤ 1 := le_rfl
    exact partCalls_all (p := fun c => c.inFilename.length ≤ 1023)
      (fun i _ _ _ _ => length_partName_le _ i) _ _ _ _ _ hpart _ (List.getLast_mem hcalls)
  have hne : calls ≠ [] := by
    intro hnil
    have hcontent := honce.content_eq
    rw [hnil] at hcontent
    cases hcontent
  have hget := List.getLast?_eq_some_getLast hne
  have hname := hlast _ hget
  rw [List.getLast?_eq_getElem?] at hget
  rw [honce.named _ _ hget, ← hsame] at hname
  rw [hname, List.length_append, hlong] at hshort
  omega

/-- A name of 1024 bytes, five times 204 letters between slashes. -/
def longName : String :=
  String.ofList ((List.replicate 4 (List.replicate 204 'a' ++ ['/'])).flatten ++
    List.replicate 204 'a')

theorem utf8_longName : utf8 longName =
    (List.replicate 4 (List.replicate 204 97 ++ [47])).flatten ++ List.replicate 204 97 :=
  (utf8_ofList _).trans (by decide +kernel)

theorem fileName_of_not_mem {name : String} (h : 92 ∉ utf8 name) : fileName name = utf8 name := by
  have hclean : ∀ l ∈ [utf8 name], 92 ∉ l := by simpa using h
  have hsplit : (utf8 name).splitOn 92 = [utf8 name] := by
    simpa using List.splitOn_intercalate 92 hclean (by simp)
  simp [fileName, hsplit]

theorem length_fileName_longName : (fileName longName).length = 1024 := by
  have hclean : 92 ∉ utf8 longName := by
    rw [utf8_longName]
    decide +kernel
  rw [fileName_of_not_mem hclean, utf8_longName]
  decide +kernel

/-- The parts of a file of two bytes are not named by their numbers. -/
theorem mainFile_parts_longName :
    ¬ ∃ calls input t,
      WholeFileOnce [1, 2] (fun i => fileName longName ++ utf8 s!" part {i}") 1 calls ∧
      mainFile (contentHost [1, 2]) 3 rawWrappers (some "x") false longName (limitedBench 1) =
        (baselineThenParts (contentHost [1, 2]) 3 rawWrappers (some "x") false 0 input calls t).map
          fun t => (true, t) :=
  not_wholeFileOnce_of_length length_fileName_longName

end Lzbench
