import Lzbench.Main

/-!
# Reading the joined files

`lzbench_join` allocates a buffer for the sizes that `stat` gave and then trusts the sizes
that `ftello` gives, with one comparison in between: `inpos + insize > totalsize`.  For a
pipe `ftello` fails, its `-1` is the largest `size_t`, and once a byte has been read the sum
wraps to less than what was read so far.

## Main definitions

* `joinRequest`, `joinReads` — the request made for a file, and the bytes that were read.
* `FillsInOrder` — requests stay inside the buffer, which holds the files in order.
* `fillsInOrder_iff` — they do when no size is missing behind the first byte.
-/

namespace Lzbench

open Imperative

variable {σ : Type} (host : Host σ)

/-- The file that is opened for a name, if any, with what `ftello` says. -/
def joinOpen (s : Joined σ) (name : String) : Option (ℕ × ℤ × σ) :=
  let dir := host.isDirectory name s.world
  if dir.1 then none
  else
    let opened := host.fopen name dir.2
    opened.1.map fun file =>
      let told := host.ftello file opened.2
      (file, told.1, told.2)

/-- The size requested of a file, where the comparison lets it pass. -/
def joinRequest (totalsize : ℕ) (s : Joined σ) (name : String) : Option ℕ :=
  (joinOpen host s name).bind fun opened =>
    if addSize s.inpos (toSize opened.2.1) > totalsize then none else some (toSize opened.2.1)

/-- The bytes that `fread` returns for a name. -/
def joinRead (s : Joined σ) (name : String) : List UInt8 :=
  match joinOpen host s name with
  | none => []
  | some (file, told, w) => (host.fread file (toSize told) w).1

/-- The bytes read for each of the names, as long as the loop goes on. -/
def joinReads (totalsize : ℕ) : Joined σ → List String → List (List UInt8)
  | _, [] => []
  | s, name :: rest =>
    match joinFile host totalsize s name with
    | .error _ => []
    | .ok s' => joinRead host s name :: joinReads totalsize s' rest

/-- The state in which the loop begins. -/
def joinInit (inbuf : Mem) (w : σ) : Joined σ := ⟨inbuf, 0, [], [], w⟩

/-- Every request stays inside the buffer, and whenever the loop has come past some of the
files, the buffer begins with what was read of them. -/
structure FillsInOrder (totalsize : ℕ) (names : List String) (inbuf : Mem) (w : σ) : Prop where
  request_le : ∀ s name insize,
    Reaches (joinFile host totalsize) (joinInit inbuf w) names s name →
    joinRequest host totalsize s name = some insize → s.inpos + insize ≤ totalsize
  filled : ∀ done rest s, names = done ++ rest →
    done.foldlM (joinFile host totalsize) (joinInit inbuf w) = .ok s →
    s.inpos = s.fileSizes.sum ∧ s.inpos ≤ totalsize ∧
      s.inbuf.bytes 0 s.inpos = (joinReads host totalsize (joinInit inbuf w) done).flatten

/-- No file is opened whose size is not known once a byte has been read. -/
def SizesKnown (totalsize : ℕ) (names : List String) (inbuf : Mem) (w : σ) : Prop :=
  ∀ done name rest s file told w', names = done ++ name :: rest →
    done.foldlM (joinFile host totalsize) (joinInit inbuf w) = .ok s →
    (joinReads host totalsize (joinInit inbuf w) done).flatten ≠ [] →
    joinOpen host s name = some (file, told, w') → 0 ≤ told

section Loop

variable {host} {totalsize : ℕ}

/-- What an iteration can do: skip a name, or append what it has read of a file. -/
theorem joinFile_ok {s s' : Joined σ} {name : String}
    (h : joinFile host totalsize s name = .ok s') :
    (joinRead host s name = [] ∧ s'.inbuf = s.inbuf ∧ s'.inpos = s.inpos ∧
      s'.fileSizes = s.fileSizes) ∨
    ∃ insize, joinRequest host totalsize s name = some insize ∧
      (joinRead host s name).length ≤ insize ∧
      s.inpos + (joinRead host s name).length ≤ addSize totalsize padSize ∧
      s'.inbuf = ((Patch.ofList (joinRead host s name)).shift s.inpos).onto s.inbuf ∧
      s'.inpos = s.inpos + (joinRead host s name).length ∧
      s'.fileSizes = s.fileSizes ++ [(joinRead host s name).length] := by
  simp only [joinFile] at h
  by_cases hdir : (host.isDirectory name s.world).1 = true
  · rw [if_pos hdir] at h
    obtain rfl := Except.ok.inj h
    exact Or.inl ⟨by simp [joinRead, joinOpen, hdir], rfl, rfl, rfl⟩
  rw [if_neg hdir] at h
  cases hopen : (host.fopen name (host.isDirectory name s.world).2).1 with
  | none =>
    simp only [hopen] at h
    obtain rfl := Except.ok.inj h
    exact Or.inl ⟨by simp [joinRead, joinOpen, hdir, hopen], rfl, rfl, rfl⟩
  | some file =>
    simp only [hopen] at h
    have hopened : joinOpen host s name =
        some (file, host.ftello file (host.fopen name (host.isDirectory name s.world).2).2) := by
      simp [joinOpen, hdir, hopen]
    generalize host.ftello file (host.fopen name (host.isDirectory name s.world).2).2 = told
      at h hopened
    by_cases hpass : addSize s.inpos (toSize told.1) > totalsize
    · rw [if_pos hpass] at h
      cases h
    rw [if_neg hpass] at h
    have hread : joinRead host s name = (host.fread file (toSize told.1) told.2).1 := by
      simp only [joinRead, hopened]
    refine Or.inr ⟨toSize told.1, by simp [joinRequest, hopened, hpass], ?_⟩
    rw [hread]
    refine ⟨host.fread_le _ _ _, ?_⟩
    cases hinto : freadInto host file (toSize told.1) (addSize totalsize padSize) s.inpos s.inbuf
        told.2 with
    | error e => simp [hinto] at h
    | ok r =>
      simp only [hinto] at h
      obtain rfl := Except.ok.inj h
      simp only [freadInto] at hinto
      split at hinto
      · cases hinto
      · next hroom =>
        obtain rfl := Except.ok.inj hinto
        exact ⟨Nat.le_of_not_lt hroom, rfl, rfl, rfl⟩

/-- The reads of a list of names that the loop comes past. -/
theorem joinReads_append {done : List String} (rest : List String) {s s' : Joined σ}
    (h : done.foldlM (joinFile host totalsize) s = .ok s') :
    joinReads host totalsize s (done ++ rest) =
      joinReads host totalsize s done ++ joinReads host totalsize s' rest := by
  induction done generalizing s with
  | nil =>
    obtain rfl := Except.ok.inj h
    rfl
  | cons name done ih =>
    rw [List.foldlM_cons] at h
    obtain ⟨t, hstep, h⟩ := bind_eq_ok.mp h
    simp only [List.cons_append, joinReads, hstep, ih h]

/-- The buffer is filled with the reads, as far as the loop has come. -/
structure Filled (totalsize : ℕ) (reads : List (List UInt8)) (s : Joined σ) : Prop where
  inpos_eq : s.inpos = s.fileSizes.sum
  inpos_le : s.inpos ≤ totalsize
  inpos_room : s.inpos ≤ addSize totalsize padSize
  bytes_eq : s.inbuf.bytes 0 s.inpos = reads.flatten

theorem Filled.length_eq {reads : List (List UInt8)} {s : Joined σ}
    (h : Filled totalsize reads s) : reads.flatten.length = s.inpos := by
  rw [← h.bytes_eq, Mem.length_bytes]

/-- An iteration whose request stays inside the buffer. -/
theorem Filled.step {reads : List (List UInt8)} {s s' : Joined σ} {name : String}
    (h : Filled totalsize reads s) (hstep : joinFile host totalsize s name = .ok s')
    (hfits : ∀ insize, joinRequest host totalsize s name = some insize →
      s.inpos + insize ≤ totalsize) :
    Filled totalsize (reads ++ [joinRead host s name]) s' := by
  cases joinFile_ok hstep with
  | inl hskip =>
    obtain ⟨hread, hbuf, hpos, hsizes⟩ := hskip
    refine ⟨?_, ?_, ?_, ?_⟩
    · rw [hpos, hsizes, h.inpos_eq]
    · rw [hpos]
      exact h.inpos_le
    · rw [hpos]
      exact h.inpos_room
    · rw [hbuf, hpos, hread, h.bytes_eq]
      simp
  | inr hread =>
    obtain ⟨insize, hrequest, hlen, hroom, hbuf, hpos, hsizes⟩ := hread
    have hle := hfits insize hrequest
    refine ⟨?_, ?_, ?_, ?_⟩
    · rw [hpos, hsizes, List.sum_append, List.sum_singleton, h.inpos_eq]
    · omega
    · rw [hpos]
      exact hroom
    · rw [hbuf, hpos, Patch.bytes_onto_ofList, h.bytes_eq]
      simp

/-- What `ftello` says of a file that is opened is a size or -1. -/
theorem told_range {s : Joined σ} {name : String} {file : ℕ} {told : ℤ} {w' : σ}
    (hftello : ∀ file w, -1 ≤ (host.ftello file w).1 ∧ (host.ftello file w).1 < 2 ^ 63)
    (hopen : joinOpen host s name = some (file, told, w')) : -1 ≤ told ∧ told < 2 ^ 63 := by
  simp only [joinOpen] at hopen
  split at hopen
  · cases hopen
  · obtain ⟨file', -, heq⟩ := Option.map_eq_some_iff.mp hopen
    obtain ⟨-, htold⟩ := Prod.mk.inj heq
    rw [← (Prod.mk.inj htold).1]
    exact hftello _ _

/-- A file whose size is known, or that is the first to be read, is requested only where it
fits. -/
theorem Filled.request_fits {reads : List (List UInt8)} {s : Joined σ} {name : String}
    {insize : ℕ} (hfilled : Filled totalsize reads s)
    (hobject : addSize totalsize padSize ≤ ptrdiffMax)
    (hftello : ∀ file w, -1 ≤ (host.ftello file w).1 ∧ (host.ftello file w).1 < 2 ^ 63)
    (hknown : ∀ file told w', reads.flatten ≠ [] →
      joinOpen host s name = some (file, told, w') → 0 ≤ told)
    (h : joinRequest host totalsize s name = some insize) : s.inpos + insize ≤ totalsize := by
  have hpos := hfilled.inpos_le
  have hinpos : s.inpos ≤ 2 ^ 63 - 1 := hfilled.inpos_room.trans hobject
  obtain ⟨⟨file, told, w'⟩, hopen, hpass⟩ := Option.bind_eq_some_iff.mp h
  have hrange : told < 2 ^ 63 := (told_range hftello hopen).2
  by_cases hgt : addSize s.inpos (toSize told) > totalsize
  · simp [hgt] at hpass
  obtain rfl : toSize told = insize := by simpa [hgt] using hpass
  have hlt := toSize_lt told
  by_cases hread : reads.flatten = []
  · have hzero : s.inpos = 0 := by rw [← hfilled.length_eq, hread, List.length_nil]
    rw [addSize_of_lt (by omega)] at hgt
    omega
  · rw [toSize_of_nonneg (hknown file told w' hread hopen) (by omega)] at hgt ⊢
    rw [addSize_of_lt (by omega)] at hgt
    omega

/-- Where the sizes are known, the buffer is filled however far the loop comes. -/
theorem filled_of_sizesKnown {names : List String} {inbuf : Mem} {w : σ}
    (hobject : addSize totalsize padSize ≤ ptrdiffMax)
    (hftello : ∀ file w, -1 ≤ (host.ftello file w).1 ∧ (host.ftello file w).1 < 2 ^ 63)
    (hknown : SizesKnown host totalsize names inbuf w) (done : List String) :
    ∀ rest s, names = done ++ rest →
      done.foldlM (joinFile host totalsize) (joinInit inbuf w) = .ok s →
      Filled totalsize (joinReads host totalsize (joinInit inbuf w) done) s := by
  induction done using List.reverseRecOn with
  | nil =>
    intro rest s _ hrun
    obtain rfl := Except.ok.inj hrun
    exact ⟨rfl, Nat.zero_le _, Nat.zero_le _, rfl⟩
  | append_singleton done name ih =>
    intro rest s hnames hrun
    rw [List.foldlM_append] at hrun
    obtain ⟨t, hdone, hrun⟩ := bind_eq_ok.mp hrun
    obtain ⟨s', hstep, hlast⟩ := bind_eq_ok.mp hrun
    obtain rfl := Except.ok.inj hlast
    have hnames' : names = done ++ name :: rest := by rw [hnames, List.append_assoc]; rfl
    have hfilled := ih (name :: rest) t hnames' hdone
    have hreads : joinReads host totalsize t [name] = [joinRead host t name] := by
      simp [joinReads, hstep]
    rw [joinReads_append [name] hdone, hreads]
    exact hfilled.step hstep fun insize hrequest =>
      hfilled.request_fits hobject hftello (fun file told w' hread hopen =>
        hknown done name rest t file told w' hnames' hdone hread hopen) hrequest

theorem joinRequest_of_le {s : Joined σ} {name : String} {file : ℕ} {told : ℤ} {w' : σ}
    (hopen : joinOpen host s name = some (file, told, w'))
    (hpass : addSize s.inpos (toSize told) ≤ totalsize) :
    joinRequest host totalsize s name = some (toSize told) := by
  simp only [joinRequest, hopen, Option.bind_some, if_neg (Nat.not_lt.mpr hpass)]

/-- A file without a size passes the comparison once a byte has been read. -/
theorem joinRequest_of_unknown {s : Joined σ} {name : String} {file : ℕ} {w' : σ}
    (hopen : joinOpen host s name = some (file, -1, w')) (hpos : 0 < s.inpos)
    (hle : s.inpos ≤ totalsize) (htotal : totalsize < 2 ^ 64) :
    joinRequest host totalsize s name = some (toSize (-1)) := by
  apply joinRequest_of_le hopen
  rw [addSize_neg_one hpos (by omega)]
  omega

/-- The loop fills the buffer in order and in bounds exactly when no file without a size
comes behind the first byte. -/
theorem fillsInOrder_iff (host : Host σ) (totalsize : ℕ) (htotal : totalsize < 2 ^ 64)
    (hobject : addSize totalsize padSize ≤ ptrdiffMax)
    (hftello : ∀ file w, -1 ≤ (host.ftello file w).1 ∧ (host.ftello file w).1 < 2 ^ 63)
    (names : List String) (inbuf : Mem) (w : σ) :
    FillsInOrder host totalsize names inbuf w ↔ SizesKnown host totalsize names inbuf w := by
  constructor
  · intro h done name rest s file told w' hnames hrun hreads hopen
    by_contra hneg
    obtain rfl : told = -1 := by
      have hlow := (told_range hftello hopen).1
      omega
    obtain ⟨-, hle, hbytes⟩ := h.filled done (name :: rest) s hnames hrun
    have hpos : 0 < s.inpos := by
      rcases Nat.eq_zero_or_pos s.inpos with hzero | hpos
      · rw [hzero] at hbytes
        exact absurd hbytes.symm hreads
      · exact hpos
    have hrequest := joinRequest_of_unknown hopen hpos hle htotal
    have hover := h.request_le s name _ ⟨done, rest, hnames, hrun⟩ hrequest
    rw [toSize_neg_one] at hover
    omega
  · intro hknown
    refine ⟨fun s name insize hreach hrequest => ?_, fun done rest s hnames hrun => ?_⟩
    · obtain ⟨done, rest, hnames, hrun⟩ := hreach
      have hfilled := filled_of_sizesKnown hobject hftello hknown done (name :: rest) s hnames hrun
      exact hfilled.request_fits hobject hftello (fun file told w' hread hopen =>
        hknown done name rest s file told w' hnames hrun hread hopen) hrequest
    · have hfilled := filled_of_sizesKnown hobject hftello hknown done rest s hnames hrun
      exact ⟨hfilled.inpos_eq, hfilled.inpos_le, hfilled.bytes_eq⟩

end Loop

/-! ## A pipe behind a file -/

/-- A file of one byte, and a pipe, which has no position that `ftello` could tell. -/
def pipeHost : Host Unit where
  env := ⟨fun w => (0, w), fun w => w, 0⟩
  isDirectory _ w := (false, w)
  totalFileSize names w := (names.count "data", w)
  fopen name w :=
    (if name = "data" then some 0 else if name = "pipe" then some 1 else none, w)
  fclose _ w := w
  ftello file w := (if file = 0 then 1 else -1, w)
  fseeko _ _ w := w
  fread file n w := (([7, 8].drop file).take n, w)
  fread_le _ n _ := List.length_take_le n _
  rand w := (0, w)
  malloc _ w := (some fun _ => 0, w)
  calloc _ w := (true, w)

/-- Two files whose sizes are known. -/
theorem fillsInOrder_twice :
    FillsInOrder pipeHost 2 ["data", "data"] (fun _ => 0) () := by
  apply (fillsInOrder_iff pipeHost 2 (by decide) (by decide) ?_ _ _ _).mpr
  · intro done name rest s file told w' hnames _ _ hopen
    have hname : name ∈ ["data", "data"] := by rw [hnames]; simp
    obtain rfl : name = "data" := by simpa using hname
    obtain ⟨-, rfl, -⟩ : 0 = file ∧ 1 = told ∧ () = w' := by simpa [joinOpen, pipeHost] using hopen
    decide
  · intro file w
    by_cases hfile : file = 0 <;> simp [pipeHost, hfile]

/-- Behind the byte of the file all of the pipe is requested, of which nothing fits. -/
theorem fillsInOrder_pipe :
    ¬ FillsInOrder pipeHost 1 ["data", "pipe"] (fun _ => 0) () := by
  intro h
  let s : Joined Unit := ⟨((Patch.ofList [7]).shift 0).onto fun _ => 0, 1, [1], [], ()⟩
  have hrun : ["data"].foldlM (joinFile pipeHost 1) (joinInit (fun _ => 0) ()) = .ok s := rfl
  have hopen : joinOpen pipeHost s "pipe" = some (1, -1, ()) := rfl
  have hrequest : joinRequest pipeHost 1 s "pipe" = some (toSize (-1)) :=
    joinRequest_of_unknown hopen Nat.one_pos le_rfl (by decide)
  have hover : 1 + toSize (-1) ≤ 1 := h.request_le s "pipe" _ ⟨["data"], [], rfl, hrun⟩ hrequest
  rw [toSize_neg_one] at hover
  omega

end Lzbench
