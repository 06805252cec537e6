import Lzbench.FileList

/-!
# What the list holds

The recursion over the directories is flattened: a traversal is the list of the names it
comes to, each with whether its count reaches the caller, and the list is made by appending
them one after the other.  The flat list depends on the tree and on the memory for paths, the
buffer only on the flat list and on the memory for the list.

## Main definitions

* `Directory.pass`, `inputsPass` — the names that a traversal comes to.
* `appendAll` — appending them; `prepareFileList` and `listInputs` do that.
* `kept` — the names that one growth makes room for.
-/

namespace Lzbench

open Imperative

/-! ## The traversal, flattened -/

/-- A name that the traversal comes to, and whether it is counted. -/
structure Found where
  name : CString
  counted : Bool
deriving DecidableEq

def Found.uncounted (f : Found) : Found := { f with counted := false }

/-- How the loop over the entries ends: at the last one, without memory for a path, or with a
directory that cannot be read. -/
inductive Pass
  | done
  | short
  | broken
deriving DecidableEq

section Pass

variable (paths : ℕ → Bool)

mutual
/-- The names of a directory, the number of paths after it, and whether `readdir` has failed.
Where the memory for a path is missing, nothing is counted. -/
def Directory.pass (dirName : CString) : Directory → ℕ → List Found × ℕ × Bool
  | .mk opens entries readError, k =>
    if opens then
      match entries.pass dirName k with
      | (l, k, .done) => (l, k, readError)
      | (l, k, .short) => (l.map Found.uncounted, k, false)
      | (l, k, .broken) => (l, k, true)
    else ([], k, false)
def Entries.pass (dirName : CString) : Entries → ℕ → List Found × ℕ × Pass
  | .nil, k => ([], k, .done)
  | .file name rest, k =>
    if isDotName name then rest.pass dirName k
    else if paths k then
      let t := rest.pass dirName (k + 1)
      (⟨entryPath dirName name, true⟩ :: t.1, t.2)
    else ([], k + 1, .short)
  | .directory name dir rest, k =>
    if isDotName name then rest.pass dirName k
    else if paths k then
      let r := dir.pass (entryPath dirName name) (k + 1)
      if r.2.2 then (r.1, r.2.1, .broken)
      else
        let t := rest.pass dirName r.2.1
        (r.1 ++ t.1, t.2)
    else ([], k + 1, .short)
end

/-- The names of an input. -/
def InputName.pass : InputName → ℕ → List Found × ℕ × Bool
  | .file name, k => ([⟨name, true⟩], k, false)
  | .directory name dir, k => dir.pass paths name k

/-- The names of the inputs, and whether `readdir` has failed. -/
def inputsPass : List InputName → ℕ → List Found × Bool
  | [], _ => ([], false)
  | input :: rest, k =>
    let r := input.pass paths k
    if r.2.2 then (r.1, true)
    else
      let t := inputsPass rest r.2.1
      (r.1 ++ t.1, t.2)

end Pass

section Append

variable (mem : ListMemory)

/-- Appending names, with the number of those counted. -/
def appendAll : List Found → Listing → ℤ × Listing
  | [], s => (0, s)
  | f :: rest, s =>
    let r := appendName mem f.name s
    let t := appendAll rest r.2
    ((if f.counted then r.1 else 0) + t.1, t.2)

end Append

section Flatten

variable {mem : ListMemory} {paths : ℕ → Bool}

/-- Appending a name has nothing to do with the paths. -/
theorem appendName_setPaths (name : CString) (s : Listing) (k : ℕ) :
    appendName mem name (s.setPaths k) =
      ((appendName mem name s).1, (appendName mem name s).2.setPaths k) := by
  have hroom : ensureRoom mem name.length (s.setPaths k) =
      (ensureRoom mem name.length s).setPaths k := by
    rw [ensureRoom, ensureRoom]
    by_cases hfull : s.pos + name.length ≥ s.size
    · rw [if_pos hfull]
      exact if_pos hfull
    · rw [if_neg hfull]
      exact if_neg hfull
  rw [appendName, appendName, hroom]
  obtain ⟨buf, size, pos, growths, _⟩ := ensureRoom mem name.length s
  cases buf with
  | none => rfl
  | some m =>
    by_cases hroom : pos + name.length < size
    · simp [putName, Listing.setPaths, hroom]
    · simp [putName, Listing.setPaths, hroom]

/-- A buffer that is lost stays lost. -/
theorem appendName_none (name : CString) {s : Listing} (h : s.buf = none) :
    (appendName mem name s).2.buf = none := by
  have hroom : (ensureRoom mem name.length s).buf = none := by
    simp only [ensureRoom, growBuffer]
    split
    · simp [h]
    · exact h
  simp [appendName, putName, hroom]

theorem appendAll_none (l : List Found) {s : Listing} (h : s.buf = none) :
    (appendAll mem l s).2.buf = none := by
  induction l generalizing s with
  | nil => exact h
  | cons f rest ih => exact ih (appendName_none f.name h)

theorem appendAll_append (l l' : List Found) (s : Listing) :
    appendAll mem (l ++ l') s =
      ((appendAll mem l s).1 + (appendAll mem l' (appendAll mem l s).2).1,
        (appendAll mem l' (appendAll mem l s).2).2) := by
  induction l generalizing s with
  | nil => simp [appendAll]
  | cons f rest ih => simp only [List.cons_append, appendAll, ih, add_assoc]

theorem appendAll_setPaths (l : List Found) (s : Listing) (k : ℕ) :
    appendAll mem l (s.setPaths k) =
      ((appendAll mem l s).1, (appendAll mem l s).2.setPaths k) := by
  induction l generalizing s with
  | nil => rfl
  | cons f rest ih => simp only [appendAll, appendName_setPaths, ih]

/-- The names of a directory that is given up are appended all the same. -/
theorem appendAll_uncounted (l : List Found) (s : Listing) :
    appendAll mem (l.map Found.uncounted) s = (0, (appendAll mem l s).2) := by
  induction l generalizing s with
  | nil => rfl
  | cons f rest ih => simp [appendAll, Found.uncounted, ih]

/-- A call has appended the names `l` to the list `s`, or lost the buffer. -/
structure Appends (mem : ListMemory) (l : List Found) (k : ℕ) (broken : Bool) (s : Listing)
    (r : ℤ × Listing) : Prop where
  lost : broken = true ∨ (appendAll mem l s).2.buf = none → r.2.buf = none
  eq : broken = false → (appendAll mem l s).2.buf ≠ none →
    r = (toInt32 (appendAll mem l s).1, (appendAll mem l s).2.setPaths k)

/-- The loop over the entries has appended the names `l`, or lost the buffer. -/
structure LoopAppends (mem : ListMemory) (l : List Found) (k : ℕ) (pass : Pass) (nbFiles : ℤ)
    (s : Listing) (r : Except Listing (ℤ × Listing)) : Prop where
  lost : pass = .broken ∨ (appendAll mem l s).2.buf = none → ∃ t, r = .error t ∧ t.buf = none
  short : pass = .short → (appendAll mem l s).2.buf ≠ none →
    r = .error ((appendAll mem l s).2.setPaths k)
  done : pass = .done → (appendAll mem l s).2.buf ≠ none →
    r = .ok (toInt32 (nbFiles + (appendAll mem l s).1), (appendAll mem l s).2.setPaths k)

/-- An entry whose path is visited, before the rest of the loop. -/
theorem LoopAppends.visit {name : CString} {visit : Listing → ℤ × Listing}
    {next : ℤ → Listing → Except Listing (ℤ × Listing)} {nbFiles : ℤ} {s : Listing}
    {l l' : List Found} {k k' : ℕ} {pass : Pass} (hdot : ¬ isDotName name)
    (hpath : paths s.paths = true)
    (hvisit : Appends mem l k false (s.setPaths (s.paths + 1)) (visit (s.setPaths (s.paths + 1))))
    (hnext : ∀ n t, toInt32 n = n → t.paths = k → t.buf ≠ none →
      LoopAppends mem l' k' pass n t (next n t)) :
    LoopAppends mem (l ++ l') k' pass nbFiles s (visitEntry paths name visit next nbFiles s) := by
  have happend := @appendAll_append mem l l' s
  rw [visitEntry, if_neg hdot, if_pos hpath]
  have hlost := hvisit.lost
  have heq := hvisit.eq rfl
  rw [appendAll_setPaths] at hlost heq
  generalize appendAll mem l s = a at happend hlost heq
  by_cases hnone : a.2.buf = none
  · have hbuf := hlost (Or.inr hnone)
    have hall : (appendAll mem (l ++ l') s).2.buf = none := by
      rw [happend]
      exact appendAll_none l' hnone
    simp only [hbuf, Option.isNone_none, if_true]
    exact ⟨fun _ => ⟨_, rfl, hbuf⟩, fun _ h => absurd hall h, fun _ h => absurd hall h⟩
  · have hsome : a.2.buf.isNone = false := Option.isNone_eq_false_iff.mpr
      (Option.isSome_iff_ne_none.mpr hnone)
    simp only [heq hnone, Listing.setPaths_buf, hsome]
    obtain ⟨hlost', hshort, hdone⟩ := hnext (toInt32 (nbFiles + toInt32 a.1)) (a.2.setPaths k)
      (toInt32_toInt32 _) rfl hnone
    rw [appendAll_setPaths] at hlost' hshort hdone
    have hsum : ∀ b, toInt32 (toInt32 (nbFiles + toInt32 a.1) + b) =
        toInt32 (nbFiles + (a.1 + b)) := fun b => by
      rw [toInt32_add_toInt32, toInt32_add, add_assoc]
    simp only [hsum] at hdone
    refine ⟨?_, ?_, ?_⟩ <;> rw [happend] <;> assumption

theorem isNone_eq_false {α : Type} {a : Option α} (h : a ≠ none) : a.isNone = false :=
  Option.isNone_eq_false_iff.mpr (Option.isSome_iff_ne_none.mpr h)

/-- An entry whose directory cannot be read. -/
theorem LoopAppends.visit_broken {name : CString} {visit : Listing → ℤ × Listing}
    {next : ℤ → Listing → Except Listing (ℤ × Listing)} {nbFiles : ℤ} {s : Listing}
    {l : List Found} {k : ℕ} (hdot : ¬ isDotName name) (hpath : paths s.paths = true)
    (hvisit : Appends mem l k true (s.setPaths (s.paths + 1)) (visit (s.setPaths (s.paths + 1)))) :
    LoopAppends mem l k .broken nbFiles s (visitEntry paths name visit next nbFiles s) := by
  have hbuf := hvisit.lost (Or.inl rfl)
  rw [visitEntry, if_neg hdot, if_pos hpath]
  simp only [hbuf, Option.isNone_none, if_true]
  exact ⟨fun _ => ⟨_, rfl, hbuf⟩, fun h => (nomatch h), fun h => (nomatch h)⟩

/-- An entry for whose path there is no memory. -/
theorem LoopAppends.no_path {name : CString} {visit : Listing → ℤ × Listing}
    {next : ℤ → Listing → Except Listing (ℤ × Listing)} {nbFiles : ℤ} {s : Listing}
    (hdot : ¬ isDotName name) (hpath : ¬ paths s.paths = true) (hbuf : s.buf ≠ none) :
    LoopAppends mem [] (s.paths + 1) .short nbFiles s
      (visitEntry paths name visit next nbFiles s) := by
  rw [visitEntry, if_neg hdot, if_neg hpath]
  refine ⟨fun h => ?_, fun _ _ => rfl, fun h => nomatch h⟩
  cases h with
  | inl h => cases h
  | inr h => exact absurd h hbuf

theorem toInt32_appendName (name : CString) (s : Listing) :
    toInt32 (appendName mem name s).1 = (appendName mem name s).1 := by
  simp only [appendName, putName]
  split
  · rfl
  · split <;> rfl

/-- A file. -/
theorem appends_file (name : CString) (s : Listing) :
    Appends mem [⟨name, true⟩] s.paths false s (appendName mem name s) := by
  have heq : appendName mem name s = ((appendName mem name s).1,
      (appendName mem name s).2.setPaths s.paths) := appendName_setPaths name s s.paths
  have hcount : toInt32 (appendAll mem [⟨name, true⟩] s).1 = (appendName mem name s).1 := by
    simp [appendAll, toInt32_appendName]
  refine ⟨fun h => ?_, fun _ _ => by rwa [hcount]⟩
  cases h with
  | inl h => cases h
  | inr h => exact h

/-- What a directory returns behind the loop. -/
theorem LoopAppends.leaveDirectory {l : List Found} {k : ℕ} {s : Listing} {readError : Bool}
    {r : Except Listing (ℤ × Listing)} {pass : Pass} (h : LoopAppends mem l k pass 0 s r) :
    let p : List Found × ℕ × Bool :=
      match (l, k, pass) with
      | (l, k, .done) => (l, k, readError)
      | (l, k, .short) => (l.map Found.uncounted, k, false)
      | (l, k, .broken) => (l, k, true)
    Appends mem p.1 p.2.1 p.2.2 s (leaveDirectory readError r) := by
  cases pass with
  | done =>
    refine ⟨fun hlost => ?_, fun hread hbuf => ?_⟩
    · by_cases hbuf : (appendAll mem l s).2.buf = none
      · obtain ⟨t, rfl, ht⟩ := h.lost (Or.inr hbuf)
        exact ht
      · rw [h.done rfl hbuf]
        cases hlost with
        | inl hread => simp [Lzbench.leaveDirectory, show readError = true from hread]
        | inr hnone => exact absurd hnone hbuf
    · rw [h.done rfl hbuf, zero_add]
      simp [Lzbench.leaveDirectory, show readError = false from hread]
  | short =>
    simp only
    refine ⟨fun hlost => ?_, fun _ hbuf => ?_⟩
    · rw [appendAll_uncounted] at hlost
      obtain ⟨t, rfl, ht⟩ := h.lost (Or.inr (hlost.resolve_left (by simp)))
      exact ht
    · rw [appendAll_uncounted] at hbuf ⊢
      rw [h.short rfl hbuf]
      rfl
  | broken =>
    obtain ⟨t, rfl, ht⟩ := h.lost (Or.inl rfl)
    exact ⟨fun _ => ht, fun hread => nomatch hread⟩

mutual
/-- A call of `UTIL_prepareFileList` appends the names that the traversal of its directory
comes to. -/
theorem prepareFileList_appends (dirName : CString) : ∀ (dir : Directory) (s : Listing),
    s.buf ≠ none →
      Appends mem (dir.pass paths dirName s.paths).1 (dir.pass paths dirName s.paths).2.1
        (dir.pass paths dirName s.paths).2.2 s (prepareFileList mem paths dirName dir s)
  | .mk opens entries readError, s, hbuf => by
    rw [Directory.pass, prepareFileList]
    cases opens with
    | false =>
      refine ⟨fun h => ?_, fun _ _ => rfl⟩
      cases h with
      | inl h => cases h
      | inr h => exact absurd h hbuf
    | true => exact (readEntries_appends dirName entries 0 s (by decide) hbuf).leaveDirectory
theorem readEntries_appends (dirName : CString) : ∀ (entries : Entries) (nbFiles : ℤ)
    (s : Listing), toInt32 nbFiles = nbFiles → s.buf ≠ none →
      LoopAppends mem (entries.pass paths dirName s.paths).1
        (entries.pass paths dirName s.paths).2.1 (entries.pass paths dirName s.paths).2.2 nbFiles s
        (readEntries mem paths dirName entries nbFiles s)
  | .nil, nbFiles, s, hnb, hbuf => by
    refine ⟨fun h => ?_, fun h => (nomatch h), fun _ _ => ?_⟩
    · cases h with
      | inl h => cases h
      | inr h => exact absurd h hbuf
    · have hzero : nbFiles + (appendAll mem [] s).1 = nbFiles := add_zero _
      rw [Entries.pass, hzero, hnb]
      rfl
  | .file name rest, nbFiles, s, hnb, hbuf => by
    rw [Entries.pass, readEntries]
    by_cases hdot : isDotName name
    · rw [if_pos hdot, visitEntry, if_pos hdot]
      exact readEntries_appends dirName rest nbFiles s hnb hbuf
    by_cases hpath : paths s.paths = true
    · rw [if_neg hdot, if_pos hpath]
      refine LoopAppends.visit hdot hpath (appends_file _ _) fun n t hn ht hbuf' => ?_
      have hrest := readEntries_appends dirName rest n t hn hbuf'
      rwa [ht] at hrest
    · rw [if_neg hdot, if_neg hpath]
      exact LoopAppends.no_path hdot hpath hbuf
  | .directory name dir rest, nbFiles, s, hnb, hbuf => by
    rw [Entries.pass, readEntries]
    by_cases hdot : isDotName name
    · rw [if_pos hdot, visitEntry, if_pos hdot]
      exact readEntries_appends dirName rest nbFiles s hnb hbuf
    by_cases hpath : paths s.paths = true
    · rw [if_neg hdot, if_pos hpath]
      have hdir := prepareFileList_appends (entryPath dirName name) dir
        (s.setPaths (s.paths + 1)) hbuf
      rw [Listing.setPaths_paths] at hdir
      cases hbroken : (dir.pass paths (entryPath dirName name) (s.paths + 1)).2.2 with
      | true =>
        rw [hbroken] at hdir
        simp only [hbroken, if_true]
        exact LoopAppends.visit_broken hdot hpath hdir
      | false =>
        rw [hbroken] at hdir
        simp only [hbroken, Bool.false_eq_true, if_false]
        refine LoopAppends.visit hdot hpath hdir fun n t hn ht hbuf' => ?_
        have hrest := readEntries_appends dirName rest n t hn hbuf'
        rwa [ht] at hrest
    · rw [if_neg hdot, if_neg hpath]
      exact LoopAppends.no_path hdot hpath hbuf
end

theorem listInput_appends (input : InputName) (s : Listing) (hbuf : s.buf ≠ none) :
    Appends mem (input.pass paths s.paths).1 (input.pass paths s.paths).2.1
      (input.pass paths s.paths).2.2 s (listInput mem paths input s) := by
  cases input with
  | file name => exact appends_file name s
  | directory name dir => exact prepareFileList_appends name dir s hbuf

/-- The loop over the inputs ends early where the buffer is lost. -/
theorem listInputs_lost (inputs : List InputName) (nbFiles : ℕ) (s : Listing)
    (hbuf : s.buf ≠ none)
    (h : (inputsPass paths inputs s.paths).2 = true ∨
      (appendAll mem (inputsPass paths inputs s.paths).1 s).2.buf = none) :
    listInputs mem paths inputs nbFiles s = none := by
  induction inputs generalizing nbFiles s with
  | nil =>
    cases h with
    | inl h => cases h
    | inr h => exact absurd h hbuf
  | cons input rest ih =>
    have hinput := @listInput_appends mem paths input s hbuf
    rw [listInputs]
    rw [inputsPass] at h
    generalize input.pass paths s.paths = p at hinput h
    cases hbroken : p.2.2 with
    | true => simp [hinput.lost (Or.inl hbroken)]
    | false =>
      by_cases hnone : (appendAll mem p.1 s).2.buf = none
      · simp [hinput.lost (Or.inr hnone)]
      · simp only [hbroken, Bool.false_eq_true, if_false, appendAll_append] at h
        simp only [hinput.eq hbroken hnone, Listing.setPaths_buf, isNone_eq_false hnone,
          Bool.false_eq_true, if_false]
        refine ih _ ((appendAll mem p.1 s).2.setPaths p.2.1) hnone ?_
        rwa [Listing.setPaths_paths, appendAll_setPaths]

/-- The loop over the inputs appends the names that the traversal comes to. -/
theorem listInputs_eq (inputs : List InputName) (nbFiles : ℕ) (s : Listing)
    (hbroken : (inputsPass paths inputs s.paths).2 = false)
    (hbuf : (appendAll mem (inputsPass paths inputs s.paths).1 s).2.buf ≠ none)
    (hnb : nbFiles < 2 ^ 32) :
    ∃ k, listInputs mem paths inputs nbFiles s =
      some (toUInt32 (nbFiles + (appendAll mem (inputsPass paths inputs s.paths).1 s).1),
        (appendAll mem (inputsPass paths inputs s.paths).1 s).2.setPaths k) := by
  induction inputs generalizing nbFiles s with
  | nil =>
    have hzero : (nbFiles : ℤ) + (appendAll mem [] s).1 = nbFiles := add_zero _
    refine ⟨s.paths, ?_⟩
    rw [listInputs, inputsPass, hzero, toUInt32_natCast, Nat.mod_eq_of_lt hnb]
    rfl
  | cons input rest ih =>
    have hstart : s.buf ≠ none := fun hnone => hbuf (appendAll_none _ hnone)
    have hinput := @listInput_appends mem paths input s hstart
    rw [inputsPass] at hbroken hbuf ⊢
    rw [listInputs]
    generalize input.pass paths s.paths = p at hinput hbroken hbuf
    cases hlast : p.2.2 with
    | true => simp [hlast] at hbroken
    | false =>
      simp only [hlast, Bool.false_eq_true, if_false, appendAll_append] at hbroken hbuf ⊢
      have hnone : (appendAll mem p.1 s).2.buf ≠ none :=
        fun hnone => hbuf (appendAll_none _ hnone)
      simp only [hinput.eq hlast hnone, Listing.setPaths_buf, isNone_eq_false hnone,
        Bool.false_eq_true, if_false]
      obtain ⟨k, hrest⟩ := ih (toUInt32 (nbFiles + toInt32 (appendAll mem p.1 s).1))
        ((appendAll mem p.1 s).2.setPaths p.2.1) (by rwa [Listing.setPaths_paths])
        (by rwa [Listing.setPaths_paths, appendAll_setPaths])
        (toUInt32_lt _)
      refine ⟨k, ?_⟩
      rw [hrest, Listing.setPaths_paths, appendAll_setPaths, toUInt32_toUInt32_add,
        add_right_comm, toUInt32_add_toInt32, add_right_comm, add_assoc]
      rfl

end Flatten

/-! ## The buffer -/

/-- The size of the buffer after the growth that a name may ask for. -/
def grownSize (size pos len : ℕ) : ℕ := if pos + len ≥ size then size + listSizeIncrease else size

/-- The names that find room, in a buffer of `size` bytes of which `pos` are used. -/
def kept : ℕ → ℕ → List Found → List Found
  | _, _, [] => []
  | size, pos, f :: rest =>
    if pos + f.name.length < grownSize size pos f.name.length then
      f :: kept (grownSize size pos f.name.length) (pos + f.name.length + 1) rest
    else kept (grownSize size pos f.name.length) pos rest

section Buffer

variable {mem : ListMemory}

theorem le_grownSize (size pos len : ℕ) : size ≤ grownSize size pos len := by
  rw [grownSize]
  split <;> omega

/-- Where there is a buffer after the growth, it begins with what the old one held. -/
theorem ensureRoom_some {len : ℕ} {s : Listing} {m m' : Mem} (hs : s.buf = some m)
    (h : (ensureRoom mem len s).buf = some m') : Mem.Agree m m' 0 s.size := by
  rw [ensureRoom] at h
  split at h
  · simp only [growBuffer, hs, Option.bind_some] at h
    obtain ⟨fresh, -, rfl⟩ := Option.map_eq_some_iff.mp h
    intro i hi
    simp [hi]
  · rw [hs] at h
    obtain rfl := Option.some.inj h
    exact fun i _ => rfl

theorem ensureRoom_size (len : ℕ) (s : Listing) :
    (ensureRoom mem len s).size = grownSize s.size s.pos len := by
  rw [ensureRoom, grownSize]
  split <;> rfl

theorem ensureRoom_pos (len : ℕ) (s : Listing) : (ensureRoom mem len s).pos = s.pos := by
  rw [ensureRoom]
  split <;> rfl

/-- Where no growth fails, the buffer is not lost. -/
theorem appendAll_some (hgrowth : ∀ i, (mem.growth i).isSome) (l : List Found) {s : Listing}
    (hs : s.buf ≠ none) : (appendAll mem l s).2.buf ≠ none := by
  induction l generalizing s with
  | nil => exact hs
  | cons f rest ih =>
    apply ih
    obtain ⟨m, hm⟩ := Option.ne_none_iff_exists'.mp hs
    have hroom : (ensureRoom mem f.name.length s).buf ≠ none := by
      rw [ensureRoom]
      split
      · obtain ⟨fresh, hfresh⟩ := Option.isSome_iff_exists.mp (hgrowth s.growths)
        simp [growBuffer, hm, hfresh]
      · exact hs
    obtain ⟨m', hm'⟩ := Option.ne_none_iff_exists'.mp hroom
    simp only [appendName, putName, hm']
    split
    · simp
    · simp [hm']

/-- The names `l` were appended to the buffer `m` of the list `s`, in front of what may follow. -/
structure Packs (m : Mem) (s : Listing) (l : List CString) (m' : Mem) (s' : Listing) : Prop where
  pos_eq : s'.pos = s.pos + (packed l).length
  pos_le : s'.pos ≤ s'.size
  agree : Mem.Agree m m' 0 s.pos
  bytes_eq : m'.bytes s.pos (packed l).length = packed l

/-- A buffer after the name was appended is one that had been made room in. -/
theorem exists_ensureRoom {name : CString} {s : Listing} {m m' : Mem} (hs : s.buf = some m)
    (h : (appendName mem name s).2.buf = some m') :
    ∃ t, (ensureRoom mem name.length s).buf = some t ∧ Mem.Agree m t 0 s.size := by
  cases hbuf : (ensureRoom mem name.length s).buf with
  | none => simp [appendName, putName, hbuf] at h
  | some t => exact ⟨t, rfl, ensureRoom_some hs hbuf⟩

/-- A name for which there is room is packed and counted. -/
theorem appendName_kept {name : CString} {s : Listing} {m m' : Mem} (hs : s.buf = some m)
    (hpos : s.pos ≤ s.size) (h : (appendName mem name s).2.buf = some m')
    (hroom : s.pos + name.length < grownSize s.size s.pos name.length) :
    (appendName mem name s).1 = 1 ∧
      (appendName mem name s).2.size = grownSize s.size s.pos name.length ∧
        Packs m s [name] m' (appendName mem name s).2 := by
  have hsize := @ensureRoom_size mem name.length s
  have hposition := @ensureRoom_pos mem name.length s
  obtain ⟨t, hbuf, hagree⟩ := exists_ensureRoom hs h
  simp only [appendName, putName, hbuf, hsize, hposition, if_pos hroom] at h ⊢
  obtain rfl := Option.some.inj h
  have hlen : name.length < grownSize s.size s.pos name.length - s.pos := by omega
  refine ⟨trivial, trivial, ?_, ?_, ?_, ?_⟩
  · simp [name.length_terminated, Nat.add_assoc]
  · simp only
    omega
  · exact (hagree.sub (le_refl 0) (by omega)).trans (agree_strncpy t s.pos name _)
  · rw [packed_cons, packed_nil, List.append_nil, name.length_terminated]
    exact bytes_strncpy hlen

/-- A name for which there is none is passed over. -/
theorem appendName_dropped {name : CString} {s : Listing} {m m' : Mem} (hs : s.buf = some m)
    (hpos : s.pos ≤ s.size) (h : (appendName mem name s).2.buf = some m')
    (hroom : ¬ s.pos + name.length < grownSize s.size s.pos name.length) :
    (appendName mem name s).1 = 0 ∧
      (appendName mem name s).2.size = grownSize s.size s.pos name.length ∧
        Packs m s [] m' (appendName mem name s).2 := by
  have hsize := @ensureRoom_size mem name.length s
  have hposition := @ensureRoom_pos mem name.length s
  have hle := le_grownSize s.size s.pos name.length
  obtain ⟨t, hbuf, hagree⟩ := exists_ensureRoom hs h
  simp only [appendName, putName, hbuf, hsize, hposition, if_neg hroom] at h ⊢
  obtain rfl := Option.some.inj h
  refine ⟨trivial, trivial, by rw [hposition]; rfl, ?_, hagree.sub (le_refl 0) (by omega), rfl⟩
  rw [hposition, hsize]
  omega

theorem Packs.trans {m m' m'' : Mem} {s s' s'' : Listing} {l l' : List CString}
    (h : Packs m s l m' s') (h' : Packs m' s' l' m'' s'') : Packs m s (l ++ l') m'' s'' := by
  obtain ⟨hpos, hle, hagree, hbytes⟩ := h
  obtain ⟨hpos', hle', hagree', hbytes'⟩ := h'
  refine ⟨?_, hle', hagree.trans (hagree'.sub (le_refl 0) (by omega)), ?_⟩
  · rw [hpos', hpos, packed_append, List.length_append, Nat.add_assoc]
  · have hfront : m''.bytes s.pos (packed l).length = packed l := by
      rw [← hbytes, Mem.length_bytes]
      exact Mem.bytes_eq_bytes_iff.mpr (hagree'.symm.sub (Nat.zero_le _) (by omega))
    rw [packed_append, List.length_append, Mem.bytes_add, hfront, ← hpos, hbytes']

/-- What appending does to a buffer that is not lost: the names that are kept are packed, and
those among them that count are counted. -/
theorem appendAll_packs (l : List Found) {s : Listing} {m m' : Mem} (hs : s.buf = some m)
    (hpos : s.pos ≤ s.size) (h : (appendAll mem l s).2.buf = some m') :
    (appendAll mem l s).1 = (kept s.size s.pos l).countP Found.counted ∧
      Packs m s ((kept s.size s.pos l).map Found.name) m' (appendAll mem l s).2 := by
  induction l generalizing s m with
  | nil =>
    rw [appendAll, hs] at h
    obtain rfl := Option.some.inj h
    exact ⟨rfl, rfl, hpos, fun _ _ => rfl, rfl⟩
  | cons f rest ih =>
    rw [appendAll] at h ⊢
    cases hbuf : (appendName mem f.name s).2.buf with
    | none => simp [appendAll_none rest hbuf] at h
    | some t =>
      rw [kept]
      by_cases hroom : s.pos + f.name.length < grownSize s.size s.pos f.name.length
      · obtain ⟨hone, hsize, hpacks⟩ := appendName_kept hs hpos hbuf hroom
        obtain ⟨hcount, hrest⟩ := ih hbuf hpacks.pos_le h
        have hnext : (appendName mem f.name s).2.pos = s.pos + f.name.length + 1 := by
          rw [hpacks.pos_eq, packed_cons, packed_nil, List.append_nil, f.name.length_terminated,
            Nat.add_assoc]
        rw [hsize, hnext] at hcount hrest
        rw [if_pos hroom]
        refine ⟨?_, hpacks.trans hrest⟩
        rw [hcount, hone, List.countP_cons]
        push_cast
        exact add_comm _ _
      · obtain ⟨hzero, hsize, hpacks⟩ := appendName_dropped hs hpos hbuf hroom
        obtain ⟨hcount, hrest⟩ := ih hbuf hpacks.pos_le h
        have hnext : (appendName mem f.name s).2.pos = s.pos := hpacks.pos_eq
        rw [hsize, hnext] at hcount hrest
        rw [if_neg hroom]
        refine ⟨?_, hpacks.trans hrest⟩
        rw [hcount, hzero, ite_self, zero_add]

theorem kept_sublist (size pos : ℕ) (l : List Found) : (kept size pos l).Sublist l := by
  induction l generalizing size pos with
  | nil => exact List.Sublist.slnil
  | cons f rest ih =>
    rw [kept]
    split
    · exact (ih _ _).cons_cons f
    · exact (ih _ _).cons f

/-- Names that are shorter than a growth are all kept. -/
theorem kept_eq_self {l : List Found} (hshort : ∀ f ∈ l, f.name.length < listSizeIncrease)
    {size pos : ℕ} (hpos : pos ≤ size) : kept size pos l = l := by
  induction l generalizing size pos with
  | nil => rfl
  | cons f rest ih =>
    have hlen := hshort f List.mem_cons_self
    have hroom : pos + f.name.length < grownSize size pos f.name.length := by
      rw [grownSize]
      split <;> omega
    rw [kept, if_pos hroom, ih (fun g hg => hshort g (List.mem_cons_of_mem f hg)) (by omega)]

/-- Where there is room for all the names, all are kept. -/
theorem kept_of_room {l : List Found} {size pos : ℕ}
    (hroom : pos + (packed (l.map Found.name)).length < size) : kept size pos l = l := by
  induction l generalizing pos with
  | nil => rfl
  | cons f rest ih =>
    rw [List.map_cons, packed_cons, List.length_append, f.name.length_terminated] at hroom
    have hsize : grownSize size pos f.name.length = size := by
      rw [grownSize, if_neg (by omega)]
    rw [kept, hsize, if_pos (by omega), ih (by omega)]

end Buffer

/-! ## The table -/

section Table

variable (mem : ListMemory) (paths : ℕ → Bool) (inputs : List InputName)

/-- The names that the traversal comes to and that are kept in the buffer. -/
def keptNames : List Found := kept listSizeIncrease 0 (inputsPass paths inputs 0).1

/-- The number of the names that are counted, as an `unsigned`. -/
def namesNb : ℕ := (keptNames paths inputs).countP Found.counted % 2 ^ 32

/-- The list before the loop over the inputs. -/
def startListing (m : Mem) : Listing := ⟨some m, listSizeIncrease, 0, 0, 0⟩

variable {mem paths inputs}

/-- A buffer that is lost makes no list. -/
theorem createFileList_lost {m : Mem} (hm : mem.buffer = some m)
    (h : (inputsPass paths inputs 0).2 = true ∨
      (appendAll mem (inputsPass paths inputs 0).1 (startListing m)).2.buf = none) :
    createFileList mem paths inputs = .ok none := by
  have hlost := listInputs_lost inputs 0 (startListing m) (by simp [startListing]) h
  simp only [startListing] at hlost
  simp only [createFileList, hm, hlost]

/-- A buffer that is not lost makes a table of as many names as were counted, unless one entry
more is none. -/
theorem createFileList_listed {m : Mem} (hm : mem.buffer = some m)
    (hbroken : (inputsPass paths inputs 0).2 = false)
    (hbuf : (appendAll mem (inputsPass paths inputs 0).1 (startListing m)).2.buf ≠ none) :
    ∃ t : FileTable,
      t.Lists (((keptNames paths inputs).map Found.name).take (namesNb paths inputs)) ∧
      createFileList mem paths inputs =
        if namesNb paths inputs = 0 ∨ mem.table = false then .ok none
        else if namesNb paths inputs = 2 ^ 32 - 1 then .error .undefined
        else .ok (some t) := by
  obtain ⟨k, hlist⟩ := listInputs_eq inputs 0 (startListing m) hbroken hbuf (by decide)
  obtain ⟨m', hm'⟩ := Option.ne_none_iff_exists'.mp hbuf
  obtain ⟨hcount, hpacks⟩ := appendAll_packs _ (s := startListing m) rfl (Nat.zero_le _) hm'
  have hlist' : ∃ r : ℤ × Listing, r.2.buf = some m' ∧
      listInputs mem paths inputs 0 (startListing m) =
        some (namesNb paths inputs, r.2.setPaths k) ∧
      Packs m (startListing m) ((keptNames paths inputs).map Found.name) m' r.2 := by
    refine ⟨_, hm', ?_, hpacks⟩
    have hnb : toUInt32 ((0 : ℕ) + (appendAll mem (inputsPass paths inputs 0).1
        (startListing m)).1) = namesNb paths inputs := by
      rw [hcount, Nat.cast_zero, zero_add, toUInt32_natCast]
      rfl
    rw [← hnb]
    exact hlist
  obtain ⟨r, hbuf', hlist', hpos, hsize, -, hbytes⟩ := hlist'
  have hle : namesNb paths inputs ≤ ((keptNames paths inputs).map Found.name).length := by
    rw [List.length_map]
    exact (Nat.mod_le _ _).trans List.countP_le_length
  -- the counted names are a front part of those that were packed
  have hsplit := packed_append (((keptNames paths inputs).map Found.name).take
    (namesNb paths inputs)) (((keptNames paths inputs).map Found.name).drop (namesNb paths inputs))
  rw [List.take_append_drop] at hsplit
  have hfront := Mem.bytes_of_append (a := []) (hbytes.trans hsplit)
  have hlen := congrArg List.length hsplit
  rw [List.length_append] at hlen
  have hroom : 0 + (packed (((keptNames paths inputs).map Found.name).take
      (namesNb paths inputs))).length ≤ r.2.size := by
    have hpacked : r.2.pos = 0 + (packed ((keptNames paths inputs).map Found.name)).length := hpos
    omega
  obtain ⟨table, hwalk, hat⟩ := walk_packed _ hfront hroom
  have htake := List.length_take_of_le hle
  rw [htake] at hwalk
  refine ⟨⟨m', r.2.size, table, namesNb paths inputs⟩, ⟨htake.symm, hat⟩, ?_⟩
  simp only [startListing] at hlist'
  simp only [createFileList, hm, hlist']
  by_cases hnone : namesNb paths inputs = 0 ∨ mem.table = false
  · rw [if_pos hnone, if_pos hnone]
  · rw [if_neg hnone, if_neg hnone]
    have hwalk' : walk m' (r.2.setPaths k).size (namesNb paths inputs) 0 = _ := hwalk
    have hlt : namesNb paths inputs < 2 ^ 32 := Nat.mod_lt _ (by decide)
    have hentries : toUInt32 (namesNb paths inputs + 1) < namesNb paths inputs ↔
        namesNb paths inputs = 2 ^ 32 - 1 := by
      simp only [toUInt32]
      omega
    simp only [Listing.setPaths_buf, hbuf', hwalk', hentries]
    split
    · rfl
    · exact if_neg (Nat.not_lt.mpr hroom)

end Table

/-! ## With memory for everything -/

mutual
/-- `p` holds of every directory in the tree, of whether it opens and of whether `readdir`
fails. -/
def Directory.All (p : Bool → Bool → Prop) : Directory → Prop
  | .mk opens entries readError => p opens readError ∧ entries.All p
def Entries.All (p : Bool → Bool → Prop) : Entries → Prop
  | .nil => True
  | .file _ rest => rest.All p
  | .directory name dir rest => (isDotName name ∨ dir.All p) ∧ rest.All p
end

def InputName.All (p : Bool → Bool → Prop) : InputName → Prop
  | .file _ => True
  | .directory _ dir => dir.All p

/-- A list can be made: no `readdir` fails, every path is shorter than a growth, and there is a
file. -/
structure Listable (inputs : List InputName) : Prop where
  reads : ∀ input ∈ inputs, input.All fun _ readError => readError = false
  short : ∀ name ∈ inputNames true inputs, name.length < listSizeIncrease
  nonempty : inputNames true inputs ≠ []

/-- Where no allocation fails, the table is that of all names. -/
def ListsAll (inputs : List InputName) : Prop :=
  ∀ mem : ListMemory, mem.Suffices → ∃ t, createFileList mem (fun _ => true) inputs =
    .ok (some t) ∧ t.Lists (inputNames true inputs)

/-- A name that counts. -/
def Found.listed (name : CString) : Found := ⟨name, true⟩

mutual
/-- A traversal that nothing stops comes to every name. -/
theorem Directory.pass_all (dirName : CString) : ∀ (dir : Directory) (k : ℕ),
    dir.All (fun _ readError => readError = false) → dir.All (fun opens _ => opens = true) →
      ∃ k', dir.pass (fun _ => true) dirName k =
        ((dir.names true dirName).map Found.listed, k', false)
  | .mk opens entries readError, k, hreads, hopens => by
    obtain ⟨rfl, hreads⟩ := hreads
    obtain ⟨rfl, hopens⟩ := hopens
    obtain ⟨k', hentries⟩ := Entries.pass_all dirName entries k hreads hopens
    exact ⟨k', by simp [Directory.pass, Directory.names, hentries]⟩
theorem Entries.pass_all (dirName : CString) : ∀ (entries : Entries) (k : ℕ),
    entries.All (fun _ readError => readError = false) →
      entries.All (fun opens _ => opens = true) →
        ∃ k', entries.pass (fun _ => true) dirName k =
          ((entries.names true dirName).map Found.listed, k', .done)
  | .nil, k, _, _ => ⟨k, rfl⟩
  | .file name rest, k, hreads, hopens => by
    by_cases hdot : isDotName name
    · obtain ⟨k', hrest⟩ := Entries.pass_all dirName rest k hreads hopens
      exact ⟨k', by simp [Entries.pass, Entries.names, hdot, hrest]⟩
    · obtain ⟨k', hrest⟩ := Entries.pass_all dirName rest (k + 1) hreads hopens
      exact ⟨k', by simp [Entries.pass, Entries.names, hdot, hrest, Found.listed]⟩
  | .directory name dir rest, k, hreads, hopens => by
    by_cases hdot : isDotName name
    · obtain ⟨k', hrest⟩ := Entries.pass_all dirName rest k hreads.2 hopens.2
      exact ⟨k', by simp [Entries.pass, Entries.names, hdot, hrest]⟩
    · obtain ⟨k₁, hdir⟩ := Directory.pass_all (entryPath dirName name) dir (k + 1)
        (hreads.1.resolve_left hdot) (hopens.1.resolve_left hdot)
      obtain ⟨k₂, hrest⟩ := Entries.pass_all dirName rest k₁ hreads.2 hopens.2
      exact ⟨k₂, by simp [Entries.pass, Entries.names, hdot, hdir, hrest]⟩
end

theorem inputsPass_all (inputs : List InputName) (k : ℕ)
    (hreads : ∀ input ∈ inputs, input.All fun _ readError => readError = false)
    (hopens : ∀ input ∈ inputs, input.All fun opens _ => opens = true) :
    inputsPass (fun _ => true) inputs k = ((inputNames true inputs).map Found.listed, false) := by
  induction inputs generalizing k with
  | nil => rfl
  | cons input rest ih =>
    rw [List.forall_mem_cons] at hreads hopens
    have hinput : ∃ k', input.pass (fun _ => true) k =
        ((input.names true).map Found.listed, k', false) := by
      cases input with
      | file name => exact ⟨k, rfl⟩
      | directory name dir => exact Directory.pass_all name dir k hreads.1 hopens.1
    obtain ⟨k', hinput⟩ := hinput
    have hrest := ih k' hreads.2 hopens.2
    simp [inputsPass, hinput, hrest, inputNames]

/-- Where no allocation fails, every directory can be read, and the paths are short and fewer
than an `int` counts, the table is that of all names. -/
theorem listsAll (inputs : List InputName) (h : Listable inputs)
    (hopens : ∀ input ∈ inputs, input.All fun opens _ => opens = true)
    (hcount : (inputNames true inputs).length < 2 ^ 31) : ListsAll inputs := by
  intro mem hmem
  obtain ⟨m, hm⟩ := Option.isSome_iff_exists.mp hmem.buffer
  have hpass := inputsPass_all inputs 0 h.reads hopens
  have hkept : keptNames (fun _ => true) inputs = (inputNames true inputs).map Found.listed := by
    rw [keptNames, hpass]
    apply kept_eq_self _ (Nat.zero_le _)
    intro f hf
    obtain ⟨name, hname, rfl⟩ := List.mem_map.mp hf
    exact h.short name hname
  have hnames : (keptNames (fun _ => true) inputs).map Found.name = inputNames true inputs := by
    rw [hkept, List.map_map]
    exact List.map_id _
  have hnb : namesNb (fun _ => true) inputs = (inputNames true inputs).length := by
    rw [namesNb, hkept, List.countP_map, Nat.mod_eq_of_lt]
    · exact List.countP_eq_length.mpr fun _ _ => rfl
    · exact lt_of_le_of_lt List.countP_le_length (by omega)
  obtain ⟨t, hlists, hlist⟩ := createFileList_listed hm (by rw [hpass])
    (appendAll_some hmem.growth _ (by simp [startListing]))
  rw [hnames, hnb, List.take_length] at hlists
  have hpos : (inputNames true inputs).length ≠ 0 := fun hzero =>
    h.nonempty (List.length_eq_zero_iff.mp hzero)
  rw [hnb, if_neg (by simp [hpos, hmem.table]), if_neg (by omega)] at hlist
  exact ⟨t, hlist, hlists⟩

/-- A name of a single letter. -/
def letterName (c : UInt8) (h : c ≠ 0) : CString := ⟨[c], by simpa using h.symm⟩

/-- Memory that is always there. -/
def plentyMemory : ListMemory := ⟨some fun _ => 0, fun _ => some fun _ => 0, true⟩

theorem suffices_plentyMemory : plentyMemory.Suffices := ⟨rfl, fun _ => rfl, rfl⟩

/-- A directory of two files. -/
def twoFiles : Directory :=
  .mk true (.file (letterName 97 (by decide)) (.file (letterName 98 (by decide)) .nil)) false

/-- A file and a directory with a file and a directory, with their dot entries. -/
def smallTree : List InputName :=
  [.file (letterName 97 (by decide)),
    .directory (letterName 100 (by decide))
      (.mk true (.directory ⟨[46], by decide⟩ (.mk true .nil false)
        (.file (letterName 98 (by decide))
          (.directory (letterName 99 (by decide))
            (.mk true (.file (letterName 97 (by decide)) .nil) false) .nil))) false)]

theorem listsAll_smallTree : ListsAll smallTree := by
  apply listsAll smallTree ⟨?_, by decide, by decide⟩ ?_ (by decide)
  · simp [smallTree, InputName.All, Directory.All, Entries.All]
  · simp [smallTree, InputName.All, Directory.All, Entries.All]

/-- The number that is returned is an `unsigned`. -/
theorem allocatedNamesNb_lt {mem : ListMemory} {paths : ℕ → Bool} {inputs : List InputName}
    {t : FileTable} (h : createFileList mem paths inputs = .ok (some t)) :
    t.allocatedNamesNb < 2 ^ 32 := by
  cases hm : mem.buffer with
  | none => simp [createFileList, hm] at h
  | some m =>
    by_cases hlost : (inputsPass paths inputs 0).2 = true ∨
        (appendAll mem (inputsPass paths inputs 0).1 (startListing m)).2.buf = none
    · rw [createFileList_lost hm hlost] at h
      cases h
    · rw [not_or, Bool.not_eq_true] at hlost
      obtain ⟨t', hlists, hlist⟩ := createFileList_listed hm hlost.1 hlost.2
      rw [hlist] at h
      split_ifs at h
      · cases h
      · obtain rfl := Option.some.inj (Except.ok.inj h)
        rw [hlists.allocatedNamesNb_eq]
        exact lt_of_le_of_lt (List.length_take_le _ _) (Nat.mod_lt _ (by decide))

/-- A directory that cannot be opened, beside a file. -/
def unreadableTree : List InputName :=
  [.directory (letterName 100 (by decide))
      (.mk false (.file (letterName 98 (by decide)) .nil) false),
    .file (letterName 97 (by decide))]

/-- Three letters for a number below `50 ^ 3`. -/
def numberedName (i : ℕ) : CString where
  bytes := [UInt8.ofNat (65 + i / 2500 % 50), UInt8.ofNat (65 + i / 50 % 50),
    UInt8.ofNat (65 + i % 50)]
  noNul := by
    have hne : ∀ d < 50, (0 : UInt8) ≠ UInt8.ofNat (65 + d) := by decide
    simp only [List.mem_cons, List.not_mem_nil, or_false, not_or]
    exact ⟨hne _ (Nat.mod_lt _ (by decide)), hne _ (Nat.mod_lt _ (by decide)),
      hne _ (Nat.mod_lt _ (by decide))⟩

/-- `n` files. -/
def numberedFiles : ℕ → Entries
  | 0 => .nil
  | n + 1 => .file (numberedName n) (numberedFiles n)

/-- A directory of `n` files, given `k` times. -/
def repeatedFiles (k n : ℕ) : List InputName :=
  List.replicate k (.directory (letterName 100 (by decide)) (.mk true (numberedFiles n) false))

theorem not_isDotName_numberedName (i : ℕ) : ¬ isDotName (numberedName i) := by
  simp [isDotName, numberedName]

theorem length_numberedFiles (dirName : CString) (n : ℕ) :
    ((numberedFiles n).names true dirName).length = n := by
  induction n with
  | zero => rfl
  | succ n ih => simp [numberedFiles, Entries.names, not_isDotName_numberedName, ih]

theorem name_numberedFiles (dirName : CString) (n : ℕ) :
    ∀ name ∈ (numberedFiles n).names true dirName, name.length = dirName.length + 4 := by
  induction n with
  | zero => simp [numberedFiles, Entries.names]
  | succ n ih =>
    simp only [numberedFiles, Entries.names, if_neg (not_isDotName_numberedName n), List.mem_cons,
      forall_eq_or_imp]
    exact ⟨by simp [entryPath, CString.join, CString.length, numberedName], ih⟩

theorem all_numberedFiles (p : Bool → Bool → Prop) (n : ℕ) : (numberedFiles n).All p := by
  induction n with
  | zero => exact trivial
  | succ n ih => exact ih

theorem length_repeatedFiles (k n : ℕ) : (inputNames true (repeatedFiles k n)).length = k * n := by
  induction k with
  | zero => rw [Nat.zero_mul]; rfl
  | succ k ih =>
    rw [repeatedFiles, List.replicate_succ, inputNames, List.flatMap_cons, List.length_append,
      Nat.succ_mul, Nat.add_comm]
    exact congrArg₂ (· + ·) ih (length_numberedFiles _ n)

theorem listable_repeatedFiles {k n : ℕ} (h : 0 < k * n) : Listable (repeatedFiles k n) := by
  refine ⟨fun input hinput => ?_, fun name hname => ?_, fun hnil => ?_⟩
  · rw [List.eq_of_mem_replicate hinput]
    exact ⟨rfl, all_numberedFiles _ _⟩
  · obtain ⟨input, hinput, hname⟩ := List.mem_flatMap.mp hname
    rw [List.eq_of_mem_replicate hinput] at hname
    rw [name_numberedFiles _ _ name hname]
    decide
  · rw [← length_repeatedFiles, hnil, List.length_nil] at h
    omega

/-- The files in a directory that cannot be opened are not in the table, and a table of
`2 ^ 32` files is none. -/
theorem not_listsAll :
    (Listable unreadableTree ∧ ¬ ListsAll unreadableTree) ∧
      Listable (repeatedFiles (2 ^ 16) (2 ^ 16)) ∧
        ¬ ListsAll (repeatedFiles (2 ^ 16) (2 ^ 16)) := by
  refine ⟨⟨⟨?_, by decide, by decide⟩, fun hall => ?_⟩,
    listable_repeatedFiles (by norm_num), fun hall => ?_⟩
  · simp [unreadableTree, InputName.All, Directory.All, Entries.All]
  · obtain ⟨t, hlist, hlists⟩ := hall plentyMemory suffices_plentyMemory
    obtain ⟨t', hlists', hlist'⟩ := @createFileList_listed plentyMemory
      (fun _ => true) unreadableTree _ rfl rfl
      (appendAll_some suffices_plentyMemory.growth _ (by simp [startListing]))
    have hnb : namesNb (fun _ => true) unreadableTree = 1 := by decide
    rw [hnb, if_neg (by decide), if_neg (by decide), hlist] at hlist'
    obtain rfl := Option.some.inj (Except.ok.inj hlist')
    have htwo := hlists.allocatedNamesNb_eq
    rw [hlists'.allocatedNamesNb_eq, hnb] at htwo
    revert htwo
    decide
  · obtain ⟨t, hlist, hlists⟩ := hall plentyMemory suffices_plentyMemory
    have hlt := allocatedNamesNb_lt hlist
    rw [hlists.allocatedNamesNb_eq, length_repeatedFiles] at hlt
    norm_num at hlt

end Lzbench
