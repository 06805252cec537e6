import Lzbench.ChunkSizes
import Lzbench.OptionItems

/-!
# What the numbers of the options come to

`main` keeps a number in 32 bits, and shifts or multiplies it there as well, before it becomes a
size.  So a number beyond some bound is not rejected; it stands for another one, and that may be
zero, which means no memory limit, no time limit, or chunks without bytes.

## Main definitions

* `digitsValue` — the value of digits.
* `OptionItem.Exact`, `StoresExact` — the number of an option is stored as it is.
* `storesExact_iff` — the numbers for which it is.
* `ChunksEnd` — with these parameters all files are cut into chunks.
* `chunksEnd_iff` — the command lines for which they are.
-/

namespace Lzbench

open Imperative

/-- The value of digits. -/
def digitsValue (digits : List Char) : ℕ := Nat.ofDigitChars 10 digits 0

theorem foldl_number32 (digits : List Char) (n : ℕ) :
    digits.foldl (fun number c => (number * 10 + (c.toNat - 48)) % 2 ^ 32) (n % 2 ^ 32) =
      Nat.ofDigitChars 10 digits n % 2 ^ 32 := by
  induction digits generalizing n with
  | nil => rfl
  | cons c digits ih =>
    have hstep : (n % 2 ^ 32 * 10 + (c.toNat - 48)) % 2 ^ 32 =
        (10 * n + (c.toNat - 48)) % 2 ^ 32 := by omega
    rw [List.foldl_cons, hstep, ih, Nat.ofDigitChars_cons]
    rfl

/-- The number that the parser keeps. -/
theorem number32_eq (digits : List Char) : number32 digits = digitsValue digits % 2 ^ 32 :=
  foldl_number32 digits 0

/-! ## Exact values -/

/-- The usage text: kilobytes, units of a quarter of a megabyte, and seconds. -/
def OptionItem.Exact (it : OptionItem) (p : LzbenchParams) : Prop :=
  match it.letter with
  | 'b' => p.chunkSize = 1024 * digitsValue it.digits
  | 'm' => p.memLimit = 2 ^ 18 * digitsValue it.digits
  | 't' => p.cmintime = 1000 * digitsValue it.digits ∧
      ∀ digits ∈ it.second, p.dmintime = 1000 * digitsValue digits
  | 'u' => p.dmintime = 1000 * digitsValue it.digits
  | _ => True

/-- The number can be shifted or multiplied in 32 bits. -/
def OptionItem.InRange (it : OptionItem) : Prop :=
  match it.letter with
  | 'b' => digitsValue it.digits < 2 ^ 22
  | 'm' => digitsValue it.digits < 2 ^ 14
  | 't' => 1000 * digitsValue it.digits < 2 ^ 32 ∧
      ∀ digits ∈ it.second, 1000 * digitsValue digits < 2 ^ 32
  | 'u' => 1000 * digitsValue it.digits < 2 ^ 32
  | _ => True

theorem minTime_iff (digits : List Char) :
    minTime (number32 digits) = 1000 * digitsValue digits ↔ 1000 * digitsValue digits < 2 ^ 32 := by
  rw [minTime, number32_eq]
  omega

/-- One option stores its exact value exactly if that is in range. -/
theorem exact_iff {it : OptionItem} {o o' : Options} (h : it.apply o = .ok o') :
    it.Exact o'.params ↔ it.InRange := by
  obtain ⟨letter, digits, second, text⟩ := it
  simp only [OptionItem.apply, setOption] at h
  split at h
  case h_1 =>
    cases h
    simp only [OptionItem.Exact, OptionItem.InRange, number32_eq]
    omega
  case h_6 =>
    cases h
    simp only [OptionItem.Exact, OptionItem.InRange, LzbenchParams.setMemLimit, number32_eq]
    omega
  case h_12 =>
    cases second with
    | none =>
      cases h
      simp [OptionItem.Exact, OptionItem.InRange, LzbenchParams.setCmintime, minTime_iff]
    | some digits' =>
      cases h
      simp [OptionItem.Exact, OptionItem.InRange, LzbenchParams.setCmintime,
        LzbenchParams.setDmintime, minTime_iff]
  case h_13 =>
    cases h
    exact minTime_iff digits
  case h_20 => cases h
  all_goals exact Iff.rfl

/-- After every option of a command line its exact value is stored. -/
def StoresExact (o : Options) (args : List String) : Prop :=
  ∀ pre it post o₁ o₂, (optionSteps args).1 = pre ++ .item it :: post →
    pre.foldlM OptionStep.apply o = .ok o₁ → it.apply o₁ = .ok o₂ → it.Exact o₂.params

/-- A command line is accepted where its steps are. -/
theorem steps_of_readOptions {o : Options} {args : List String} {r : Options × List String}
    (h : readOptions o args = .ok r) :
    (optionSteps args).1.foldlM OptionStep.apply o = .ok r.1 := by
  rw [readOptions_eq] at h
  cases hsteps : (optionSteps args).1.foldlM OptionStep.apply o with
  | error e =>
    rw [hsteps] at h
    cases h
  | ok o' =>
    rw [hsteps] at h
    cases h
    rfl

/-- The states before and after a step of a command line that is accepted. -/
theorem readOptions_step {o : Options} {args : List String} {r : Options × List String}
    (h : readOptions o args = .ok r) {pre post : List OptionStep} {s : OptionStep}
    (hsteps : (optionSteps args).1 = pre ++ s :: post) :
    ∃ o₁ o₂, pre.foldlM OptionStep.apply o = .ok o₁ ∧ s.apply o₁ = .ok o₂ := by
  have hrun := steps_of_readOptions h
  rw [hsteps, List.foldlM_append] at hrun
  obtain ⟨o₁, hpre, hrun⟩ := bind_eq_ok.mp hrun
  rw [List.foldlM_cons] at hrun
  obtain ⟨o₂, hs, -⟩ := bind_eq_ok.mp hrun
  exact ⟨o₁, o₂, hpre, hs⟩

/-- An accepted command line stores exact values exactly if all its numbers are in range. -/
theorem storesExact_iff {o : Options} {args : List String} {r : Options × List String}
    (h : readOptions o args = .ok r) :
    StoresExact o args ↔ ∀ it, .item it ∈ (optionSteps args).1 → it.InRange := by
  constructor
  · intro hexact it hmem
    obtain ⟨pre, post, hsteps⟩ := List.append_of_mem hmem
    obtain ⟨o₁, o₂, hpre, hit⟩ := readOptions_step h hsteps
    exact (exact_iff hit).mp (hexact pre it post o₁ o₂ hsteps hpre hit)
  · intro hrange pre it post o₁ o₂ hsteps _ hit
    have hmem : .item it ∈ (optionSteps args).1 := by
      rw [hsteps]
      exact List.mem_append_right pre (List.mem_cons_self ..)
    exact (exact_iff hit).mpr (hrange it hmem)

/-- The largest numbers that are in range. -/
theorem storesExact_largest :
    StoresExact defaultOptions ["-b4194303", "-m16383t4294967,0u4294967", "data"] := by
  refine (storesExact_iff rfl).mpr ?_
  simp only [show (optionSteps ["-b4194303", "-m16383t4294967,0u4294967", "data"]).1 =
    [.item ⟨'b', "4194303".toList, none, []⟩, .item ⟨'m', "16383".toList, none, []⟩,
      .item ⟨'t', "4294967".toList, some "0".toList, []⟩,
      .item ⟨'u', "4294967".toList, none, []⟩] from rfl]
  intro it hit
  simp only [List.mem_cons, OptionStep.item.injEq, List.not_mem_nil, or_false] at hit
  rcases hit with rfl | rfl | rfl | rfl
  · exact (by decide : digitsValue "4194303".toList < 2 ^ 22)
  · exact (by decide : digitsValue "16383".toList < 2 ^ 14)
  · exact ⟨(by decide : 1000 * digitsValue "4294967".toList < 2 ^ 32),
      fun digits hd => Option.mem_some.mp hd ▸ (by decide : 1000 * digitsValue "0".toList < 2 ^ 32)⟩
  · exact (by decide : 1000 * digitsValue "4294967".toList < 2 ^ 32)

/-- `-m16384`. -/
def largeLimit : OptionItem := ⟨'m', "16384".toList, none, []⟩

/-- That memory limit is no limit. -/
theorem not_storesExact :
    ¬ ∀ args r, readOptions defaultOptions args = .ok r → StoresExact defaultOptions args := by
  intro hall
  have hsteps : (optionSteps ["-m16384"]).1 = [.item largeLimit] := rfl
  have hread : readOptions defaultOptions ["-m16384"] =
      .ok ({ defaultOptions with params := defaultParams.setMemLimit 16384 }, []) := by decide
  have happly : largeLimit.apply defaultOptions =
      .ok { defaultOptions with params := defaultParams.setMemLimit 16384 } := by decide
  have hexact := (exact_iff happly).mp (hall _ _ hread [] largeLimit [] _ _ hsteps rfl happly)
  exact absurd hexact (by decide : ¬ digitsValue "16384".toList < 2 ^ 14)

/-! ## The chunk size -/

/-- The digits of a step with this letter. -/
def OptionStep.digitsOf (letter : Char) : OptionStep → Option (List Char)
  | compressOnly => none
  | item it => if it.letter = letter then some it.digits else none

/-- The digits of the last option `b` of a command line. -/
def chunkDigits (args : List String) : Option (List Char) :=
  ((optionSteps args).1.filterMap (OptionStep.digitsOf 'b')).getLast?

/-- Only `b` sets the chunk size. -/
theorem apply_chunkSize {s : OptionStep} {o o' : Options} (h : s.apply o = .ok o') :
    o'.params.chunkSize =
      (s.digitsOf 'b').elim o.params.chunkSize fun digits => number32 digits * 2 ^ 10 % 2 ^ 32 := by
  cases s with
  | compressOnly =>
    cases h
    rfl
  | item it =>
    obtain ⟨letter, digits, second, text⟩ := it
    simp only [OptionStep.apply, OptionItem.apply, setOption] at h
    split at h
    case' h_4 => cases second
    case' h_12 => cases second
    case h_20 => cases h
    all_goals
      cases h
      try rfl

theorem foldlM_chunkSize {steps : List OptionStep} {o o' : Options}
    (h : steps.foldlM OptionStep.apply o = .ok o') :
    o'.params.chunkSize =
      (steps.filterMap (OptionStep.digitsOf 'b')).getLast?.elim o.params.chunkSize
        fun digits => number32 digits * 2 ^ 10 % 2 ^ 32 := by
  induction steps generalizing o with
  | nil =>
    cases h
    rfl
  | cons s steps ih =>
    rw [List.foldlM_cons] at h
    obtain ⟨o₁, hs, h⟩ := bind_eq_ok.mp h
    rw [ih h, apply_chunkSize hs, List.filterMap_cons]
    cases s.digitsOf 'b' with
    | none => rfl
    | some digits =>
      simp only [List.getLast?_cons, Option.elim_some]
      cases (steps.filterMap (OptionStep.digitsOf 'b')).getLast? <;> rfl

/-- With these parameters every compressor gets chunks of some bytes, and all files are cut
up. -/
def ChunksEnd (params : LzbenchParams) : Prop :=
  ∀ fileSizes : List ℕ, (∃ size ∈ fileSizes, 0 < size) → ∀ e ∈ compTable,
    let chunkSize := effectiveChunkSize params.chunkSize fileSizes.sum e.maxBlockSize
    1 ≤ chunkSize ∧ ∃ chunks, splitFiles chunkSize fileSizes = some chunks

/-- The block sizes of the table. -/
theorem compTable_maxBlockSize : ∀ e ∈ compTable, 0 ≤ e.maxBlockSize ∧ e.maxBlockSize < 2 ^ 31 := by
  decide +kernel

/-- All that is needed is a chunk size. -/
theorem chunksEnd_iff_pos {params : LzbenchParams} :
    ChunksEnd params ↔ 0 < params.chunkSize := by
  constructor
  · intro hend
    obtain ⟨hpos, -⟩ := hend [1] ⟨1, by simp, Nat.one_pos⟩ _ (List.mem_cons_self ..)
    exact lt_of_lt_of_le hpos (effectiveChunkSize_le ..).1
  · intro hchunk fileSizes hsome e he
    obtain ⟨size, hmem, hsize⟩ := hsome
    have hblock := compTable_maxBlockSize e he
    have htoSize : toSize e.maxBlockSize = e.maxBlockSize.toNat :=
      toSize_of_nonneg hblock.1 (by omega)
    have htotal := List.single_le_sum (fun _ _ => Nat.zero_le _) size hmem
    have hpos : 0 < effectiveChunkSize params.chunkSize fileSizes.sum e.maxBlockSize :=
      effectiveChunkSize_pos hchunk (by omega) (by omega)
    obtain ⟨chunks, hchunks, -⟩ := splitFiles_spec hpos fileSizes
    exact ⟨hpos, chunks, hchunks⟩

/-- A shifted number that is zero in 32 bits. -/
theorem chunkSize_pos_iff (digits : List Char) :
    0 < number32 digits * 2 ^ 10 % 2 ^ 32 ↔ ¬ 2 ^ 22 ∣ digitsValue digits := by
  rw [number32_eq]
  omega

/-- After an accepted command line the files are cut up exactly if its last chunk size is not a
multiple of 4 GB. -/
theorem chunksEnd_iff {args : List String} {r : Options × List String}
    (h : readOptions defaultOptions args = .ok r) :
    ChunksEnd r.1.params ↔
      ∀ digits, chunkDigits args = some digits → ¬ 2 ^ 22 ∣ digitsValue digits := by
  rw [chunksEnd_iff_pos, foldlM_chunkSize (steps_of_readOptions h)]
  change 0 < (chunkDigits args).elim _ _ ↔ _
  cases chunkDigits args with
  | none => simp [defaultOptions, defaultParams]
  | some digits =>
    rw [Option.elim_some, chunkSize_pos_iff]
    simp only [Option.some.injEq, forall_eq']

theorem chunksEnd_kilobyte : ChunksEnd { defaultParams with chunkSize := 1024 } := by
  have hread : readOptions defaultOptions ["-b0", "-b1", "data"] = .ok
      ({ defaultOptions with params := { defaultParams with chunkSize := 1024 } }, ["data"]) := by
    decide
  refine (chunksEnd_iff hread).mpr ?_
  intro digits hdigits
  have hlast : chunkDigits ["-b0", "-b1", "data"] = some "1".toList := rfl
  rw [hlast] at hdigits
  cases hdigits
  decide

/-- `-b0` and `-b4194304` are accepted, and no byte of a file is ever taken. -/
theorem not_chunksEnd :
    ¬ ∀ args r, readOptions defaultOptions args = .ok r → ChunksEnd r.1.params := by
  intro hall
  have hread : readOptions defaultOptions ["-b4194304", "data"] =
      .ok ({ defaultOptions with params := { defaultParams with chunkSize := 0 } }, ["data"]) := by
    decide
  exact absurd (chunksEnd_iff_pos.mp (hall _ _ hread)) (by decide)

end Lzbench
