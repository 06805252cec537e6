import Lzbench.FileListing

/-!
# How making the list fails

Where the buffer or the table cannot be had the list fails as a whole.  Where the memory for a
path is missing, `UTIL_prepareFileList` returns zero and leaves the buffer as it is: the names
appended so far are there and are not counted, and the traversal goes on in the directory above.

## Main definitions

* `FailsAsAWhole` — there is no list, or a complete one, whatever memory there is for the list.
* `CountsAppended` — a call returns the number of the names it has appended.
* `failsAsAWhole_iff`, `countsAppended_iff` — what the paths must be like for that.
-/

namespace Lzbench

open Imperative

/-- There is no list, or it is complete, whatever allocation for the list fails. -/
def FailsAsAWhole (paths : ℕ → Bool) (inputs : List InputName) : Prop :=
  ∀ mem : ListMemory, createFileList mem paths inputs = .ok none ∨
    ∃ t, createFileList mem paths inputs = .ok (some t) ∧ t.Lists (inputNames false inputs)

/-- A call that returns with a buffer returns the number of the terminators it has appended,
whatever list it finds and whatever growth fails. -/
def CountsAppended (paths : ℕ → Bool) (k : ℕ) (dirName : CString) (dir : Directory) : Prop :=
  ∀ (mem : ListMemory) (s : Listing) (m' : Mem), s.paths = k → s.buf ≠ none → s.pos ≤ s.size →
    (prepareFileList mem paths dirName dir s).2.buf = some m' →
      (prepareFileList mem paths dirName dir s).1 =
        (m'.bytes s.pos ((prepareFileList mem paths dirName dir s).2.pos - s.pos)).count 0

/-- Every file is come to, counted and kept, and with one entry more the table is not too long
for an `unsigned`. -/
structure NothingLost (paths : ℕ → Bool) (inputs : List InputName) : Prop where
  found : (inputsPass paths inputs 0).1.map Found.name = inputNames false inputs
  counted : ∀ f ∈ (inputsPass paths inputs 0).1, f.counted = true
  fits : keptNames paths inputs = (inputsPass paths inputs 0).1
  countable : (inputNames false inputs).length < 2 ^ 32 - 1

section Names

variable {paths : ℕ → Bool}

mutual
/-- The traversal comes to names of the list, each once and in order. -/
theorem Directory.pass_sublist (dirName : CString) : ∀ (dir : Directory) (k : ℕ),
    ((dir.pass paths dirName k).1.map Found.name).Sublist (dir.names false dirName)
  | .mk opens entries readError, k => by
    cases opens with
    | false => exact List.nil_sublist _
    | true =>
      have hentries := Entries.pass_sublist dirName entries k
      have huncounted : ∀ l : List Found, (l.map Found.uncounted).map Found.name =
          l.map Found.name := fun l => by rw [List.map_map]; rfl
      rw [Directory.pass, Directory.names, if_pos rfl]
      simp only [Bool.true_or, if_true]
      rcases hpass : entries.pass paths dirName k with ⟨l, k', pass⟩
      rw [hpass] at hentries
      cases pass with
      | done => exact hentries
      | short => exact (huncounted l).symm ▸ hentries
      | broken => exact hentries
theorem Entries.pass_sublist (dirName : CString) : ∀ (entries : Entries) (k : ℕ),
    ((entries.pass paths dirName k).1.map Found.name).Sublist (entries.names false dirName)
  | .nil, _ => List.nil_sublist _
  | .file name rest, k => by
    rw [Entries.pass, Entries.names]
    by_cases hdot : isDotName name
    · rw [if_pos hdot, if_pos hdot]
      exact Entries.pass_sublist dirName rest k
    rw [if_neg hdot, if_neg hdot]
    by_cases hpath : paths k = true
    · rw [if_pos hpath]
      exact (Entries.pass_sublist dirName rest (k + 1)).cons_cons _
    · rw [if_neg hpath]
      exact List.nil_sublist _
  | .directory name dir rest, k => by
    rw [Entries.pass, Entries.names]
    by_cases hdot : isDotName name
    · rw [if_pos hdot, if_pos hdot]
      exact Entries.pass_sublist dirName rest k
    rw [if_neg hdot, if_neg hdot]
    by_cases hpath : paths k = true
    · rw [if_pos hpath]
      have hdir := Directory.pass_sublist (entryPath dirName name) dir (k + 1)
      generalize dir.pass paths (entryPath dirName name) (k + 1) = r at hdir
      cases hbroken : r.2.2 with
      | true =>
        simp only [hbroken, if_true]
        exact hdir.trans (List.sublist_append_left _ _)
      | false =>
        simp only [hbroken, Bool.false_eq_true, if_false, List.map_append]
        exact hdir.append (Entries.pass_sublist dirName rest r.2.1)
    · rw [if_neg hpath]
      exact List.nil_sublist _
end

theorem inputsPass_sublist (inputs : List InputName) (k : ℕ) :
    ((inputsPass paths inputs k).1.map Found.name).Sublist (inputNames false inputs) := by
  induction inputs generalizing k with
  | nil => exact List.nil_sublist _
  | cons input rest ih =>
    have hinput : ((input.pass paths k).1.map Found.name).Sublist (input.names false) := by
      cases input with
      | file name => exact List.Sublist.refl _
      | directory name dir => exact Directory.pass_sublist name dir k
    rw [inputsPass, inputNames, List.flatMap_cons]
    generalize input.pass paths k = r at hinput
    cases hbroken : r.2.2 with
    | true =>
      simp only [if_true]
      exact hinput.trans (List.sublist_append_left _ _)
    | false =>
      simp only [Bool.false_eq_true, if_false, List.map_append]
      exact hinput.append (ih r.2.1)

/-- Nothing is lost where as many names are counted as there are. -/
theorem nothingLost_of_countP {inputs : List InputName}
    (hcountable : (inputNames false inputs).length < 2 ^ 32 - 1)
    (h : (keptNames paths inputs).countP Found.counted = (inputNames false inputs).length) :
    NothingLost paths inputs := by
  have hkept : (keptNames paths inputs).Sublist (inputsPass paths inputs 0).1 := kept_sublist _ _ _
  have hnames := @inputsPass_sublist paths inputs 0
  have hlen := hnames.length_le
  rw [List.length_map] at hlen
  have hcount : (keptNames paths inputs).countP Found.counted ≤ (keptNames paths inputs).length :=
    List.countP_le_length
  have hfits := hkept.eq_of_length_le (by omega)
  refine ⟨hnames.eq_of_length_le (by rw [List.length_map, ← hfits]; omega), ?_, hfits, hcountable⟩
  rw [hfits] at h hcount
  exact List.countP_eq_length.mp (by omega)

/-- Where nothing is lost, the names kept are the names, and all are counted. -/
theorem NothingLost.namesNb_eq {inputs : List InputName} (h : NothingLost paths inputs) :
    namesNb paths inputs = (inputNames false inputs).length := by
  have hall := List.countP_eq_length.mpr h.counted
  rw [namesNb, h.fits, hall, ← List.length_map (f := Found.name), h.found,
    Nat.mod_eq_of_lt (h.countable.trans (by decide))]

end Names

/-- What a call returns that has not lost the buffer, and how many terminators it appended. -/
theorem prepareFileList_counts {mem : ListMemory} {paths : ℕ → Bool} {dirName : CString}
    {dir : Directory} {s : Listing} {m' : Mem} (hs : s.buf ≠ none) (hpos : s.pos ≤ s.size)
    (h : (prepareFileList mem paths dirName dir s).2.buf = some m') :
    (dir.pass paths dirName s.paths).2.2 = false ∧
      (prepareFileList mem paths dirName dir s).1 =
        toInt32 ((kept s.size s.pos (dir.pass paths dirName s.paths).1).countP Found.counted) ∧
      (m'.bytes s.pos ((prepareFileList mem paths dirName dir s).2.pos - s.pos)).count 0 =
        (kept s.size s.pos (dir.pass paths dirName s.paths).1).length := by
  have hcall := @prepareFileList_appends mem paths dirName dir s hs
  generalize dir.pass paths dirName s.paths = p at hcall
  have hkept : ¬ (p.2.2 = true ∨ (appendAll mem p.1 s).2.buf = none) := by
    intro hlost
    rw [hcall.lost hlost] at h
    cases h
  rw [not_or, Bool.not_eq_true] at hkept
  obtain ⟨m, hm⟩ := Option.ne_none_iff_exists'.mp hs
  rw [hcall.eq hkept.1 hkept.2] at h ⊢
  obtain ⟨hcount, hpacks⟩ := appendAll_packs p.1 hm hpos h
  refine ⟨hkept.1, congrArg toInt32 hcount, ?_⟩
  have hend : ((appendAll mem p.1 s).2.setPaths p.2.1).pos - s.pos =
      (packed ((kept s.size s.pos p.1).map Found.name)).length := by
    have heq : ((appendAll mem p.1 s).2.setPaths p.2.1).pos = _ := hpacks.pos_eq
    omega
  rw [hend, hpacks.bytes_eq, count_packed, List.length_map]

/-- A call returns the number of the names it has appended exactly when a directory cannot be
read, or none is given up that has listed a name and an `int` counts the names. -/
theorem countsAppended_iff (paths : ℕ → Bool) (k : ℕ) (dirName : CString) (dir : Directory) :
    CountsAppended paths k dirName dir ↔ (dir.pass paths dirName k).2.2 = true ∨
      (∀ f ∈ (dir.pass paths dirName k).1, f.counted = true) ∧
        (dir.pass paths dirName k).1.length < 2 ^ 31 := by
  constructor
  · intro h
    by_contra hnot
    rw [not_or, Bool.not_eq_true] at hnot
    obtain ⟨hbroken, hlost⟩ := hnot
    let l := (dir.pass paths dirName k).1
    let s : Listing := ⟨some fun _ => 0, (packed (l.map Found.name)).length + 1, 0, 0, k⟩
    have hbuf : (prepareFileList plentyMemory paths dirName dir s).2.buf ≠ none := by
      have hall := appendAll_some suffices_plentyMemory.growth l (s := s) (by simp [s])
      rw [(prepareFileList_appends dirName dir s (by simp [s])).eq hbroken hall]
      exact hall
    obtain ⟨m', hm'⟩ := Option.ne_none_iff_exists'.mp hbuf
    obtain ⟨-, hret, hzeros⟩ := prepareFileList_counts (s := s) (by simp [s]) (Nat.zero_le _) hm'
    have hkept : kept s.size s.pos l = l := kept_of_room (by simp [s])
    have heq := h plentyMemory s m' rfl (by simp [s]) (Nat.zero_le _) hm'
    have hlen : toInt32 (l.countP Found.counted) = l.length := by
      rw [← hkept]
      exact hret.symm.trans (heq.trans (congrArg Nat.cast hzeros))
    obtain ⟨hle, hlt⟩ := toInt32_ofNat_le (l.countP Found.counted)
    have hcount : l.countP Found.counted ≤ l.length := List.countP_le_length
    have hall : l.countP Found.counted = l.length := by omega
    have hfew : l.length < 2 ^ 31 := by omega
    exact hlost ⟨List.countP_eq_length.mp hall, hfew⟩
  · intro h mem s m' hk hs hpos hbuf
    obtain ⟨hbroken, hret, hzeros⟩ := prepareFileList_counts hs hpos hbuf
    rw [hk] at hbroken hret hzeros
    obtain ⟨hall, hlt⟩ := h.resolve_left (by simp [hbroken])
    have hkept := kept_sublist s.size s.pos (dir.pass paths dirName k).1
    rw [hret, hzeros, List.countP_eq_length.mpr fun f hf => hall f (hkept.subset hf)]
    exact toInt32_ofNat (hkept.length_le.trans_lt hlt)

/-- The list fails as a whole exactly when a directory cannot be read, no name is counted, or
none is lost. -/
theorem failsAsAWhole_iff (paths : ℕ → Bool) (inputs : List InputName) :
    FailsAsAWhole paths inputs ↔ (inputsPass paths inputs 0).2 = true ∨
      namesNb paths inputs = 0 ∨ NothingLost paths inputs := by
  constructor
  · intro h
    by_contra hnot
    simp only [not_or, Bool.not_eq_true] at hnot
    obtain ⟨hbroken, hnb, hlost⟩ := hnot
    obtain ⟨t, hlists, hlist⟩ := @createFileList_listed plentyMemory _ _ _ rfl hbroken
      (appendAll_some suffices_plentyMemory.growth _ (by simp [startListing]))
    rw [if_neg (by simp [hnb, plentyMemory])] at hlist
    have hentries : namesNb paths inputs ≠ 2 ^ 32 - 1 := by
      intro hmax
      rw [if_pos hmax] at hlist
      rcases h plentyMemory with hnone | ⟨t', hsome, -⟩
      · rw [hlist] at hnone
        cases hnone
      · rw [hlist] at hsome
        cases hsome
    rw [if_neg hentries] at hlist
    have hle : namesNb paths inputs ≤ ((keptNames paths inputs).map Found.name).length := by
      rw [List.length_map]
      exact (Nat.mod_le _ _).trans List.countP_le_length
    cases h plentyMemory with
    | inl hnone => rw [hlist] at hnone; cases hnone
    | inr hsome =>
      obtain ⟨t', hlist', hlists'⟩ := hsome
      rw [hlist] at hlist'
      obtain rfl := Option.some.inj (Except.ok.inj hlist')
      have heq := hlists'.allocatedNamesNb_eq
      rw [hlists.allocatedNamesNb_eq, List.length_take_of_le hle] at heq
      have hcountable : (inputNames false inputs).length < 2 ^ 32 - 1 := by
        have hlt : namesNb paths inputs < 2 ^ 32 := Nat.mod_lt _ (by decide)
        omega
      refine hlost (nothingLost_of_countP hcountable ?_)
      have hcount := (@List.countP_le_length _ Found.counted (keptNames paths inputs)).trans
        (kept_sublist _ _ _).length_le
      have hlen := (@inputsPass_sublist paths inputs 0).length_le
      rw [List.length_map] at hlen
      rw [← heq, namesNb, Nat.mod_eq_of_lt (by omega)]
  · intro h mem
    cases hm : mem.buffer with
    | none => exact Or.inl (by simp [createFileList, hm])
    | some m =>
      by_cases hlost : (inputsPass paths inputs 0).2 = true ∨
          (appendAll mem (inputsPass paths inputs 0).1 (startListing m)).2.buf = none
      · exact Or.inl (createFileList_lost hm hlost)
      · rw [not_or, Bool.not_eq_true] at hlost
        obtain ⟨t, hlists, hlist⟩ := createFileList_listed hm hlost.1 hlost.2
        by_cases hnone : namesNb paths inputs = 0 ∨ mem.table = false
        · exact Or.inl (by rw [hlist, if_pos hnone])
        · rw [if_neg hnone] at hlist
          have hall := (h.resolve_left (by simp [hlost.1])).resolve_left
            fun hzero => hnone (Or.inl hzero)
          have hnb := hall.namesNb_eq
          have hcountable := hall.countable
          rw [if_neg (by omega)] at hlist
          rw [hall.fits, hall.found, hnb, List.take_length] at hlists
          exact Or.inr ⟨t, hlist, hlists⟩

/-- What the paths must be like for the list to fail as a whole, and for every call of
`UTIL_prepareFileList` to return what it has appended. -/
theorem listFailure_iff (paths : ℕ → Bool) :
    (∀ inputs, FailsAsAWhole paths inputs ↔ (inputsPass paths inputs 0).2 = true ∨
      namesNb paths inputs = 0 ∨ NothingLost paths inputs) ∧
    ∀ k dirName dir, CountsAppended paths k dirName dir ↔
      (dir.pass paths dirName k).2.2 = true ∨
        (∀ f ∈ (dir.pass paths dirName k).1, f.counted = true) ∧
          (dir.pass paths dirName k).1.length < 2 ^ 31 :=
  ⟨failsAsAWhole_iff paths, countsAppended_iff paths⟩

/-- Without memory for the second path of a directory the first name is in the buffer, and not
counted: of the three files the table has one, which is not the one that was counted. -/
theorem listFailure_second :
    ¬ FailsAsAWhole (fun k => k != 1)
        [.directory (letterName 100 (by decide)) twoFiles, .file (letterName 120 (by decide))] ∧
      ¬ CountsAppended (fun k => k != 1) 0 (letterName 100 (by decide)) twoFiles := by
  rw [failsAsAWhole_iff, countsAppended_iff]
  refine ⟨?_, by decide⟩
  rintro (hbroken | hnone | hall)
  · revert hbroken
    decide
  · revert hnone
    decide
  · have hfound := hall.found
    revert hfound
    decide

end Lzbench
