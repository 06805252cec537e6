import Lzbench.CompDesc
import Lzbench.Lib.Loop

/-!
# The options

`main` reads its arguments as long as they start with a dash.  An argument is a row of letters,
each with a number behind it, which is zero where there are no digits and is kept in 32 bits.
Sizes are shifted in 32 bits as well, so a large number may come to any multiple of the unit,
zero included.

## Main definitions

* `Options` — what the options set.
* `scanNumber`, `applyOption`, `readLetters` — the number, the letter, the argument.
* `readOptions` — all arguments up to the first name.
* `readOptions_settings` — the settings that the options can make.
-/

namespace Lzbench

open Imperative

/-- The variables of `main` that the options set. -/
structure Options where
  params : LzbenchParams
  encoderList : Option String
  sortCol : ℤ
  realTime : Bool
  join : Bool
  recursive : Bool
  deriving DecidableEq

/-- How `main` ends while it reads its options. -/
inductive OptionExit
  /-- The usage is printed. -/
  | usage
  /-- The compressors are listed. -/
  | list
  | unknownOption
  deriving DecidableEq

/-- What `main` returns then. -/
def OptionExit.result : OptionExit → ℤ
  | usage => 0
  | list => 0
  | unknownOption => 1

/-- Before the first option. -/
def defaultOptions : Options where
  params := defaultParams
  encoderList := none
  sortCol := 0
  realTime := true
  join := false
  recursive := false

/-- The digits in front, as a number in 32 bits, and what follows them. -/
def scanNumber (text : List Char) : ℕ × List Char :=
  ((text.takeWhile Char.isDigit).foldl
    (fun number c => (number * 10 + (c.toNat - 48)) % 2 ^ 32) 0, text.dropWhile Char.isDigit)

/-- The number after a comma, and what follows it. -/
def secondNumber : List Char → Option (ℕ × List Char)
  | ',' :: text => some (scanNumber text)
  | _ => none

/-- `(textformat_e)number`. -/
def TextFormat.ofNumber : ℕ → TextFormat
  | 1 => markdown
  | 2 => text
  | 3 => textFull
  | 4 => csv
  | 5 => turbobench
  | 6 => markdown2
  | n => other n

/-- `(timetype_e)number`. -/
def TimeType.ofNumber : ℕ → TimeType
  | 1 => fastest
  | 2 => average
  | 3 => median
  | n => other n

/-- A time in seconds, in milliseconds and 32 bits. -/
def minTime (number : ℕ) : ℕ := 1000 * number % 2 ^ 32

/-- `cloop_time` and `dloop_time`, which are set with the minimal time. -/
def loopTime (mintime : ℕ) : ℕ := if mintime ≠ 0 then defaultLoopTime else 0

namespace LzbenchParams

variable (p : LzbenchParams) (number : ℕ)

/-- `-m`, which also adds a column to the text. -/
def setMemLimit : LzbenchParams :=
  { p with
    memLimit := number * 2 ^ 18 % 2 ^ 32
    textformat := if p.textformat = .text then .textFull else p.textformat }

/-- `-o`; nothing else is printed with a table of commas. -/
def setTextformat : LzbenchParams :=
  { p with
    textformat := .ofNumber number
    verbose := if TextFormat.ofNumber number = .csv then 0 else p.verbose }

/-- The first number of `-t`. -/
def setCmintime : LzbenchParams :=
  { p with cmintime := minTime number, cloopTime := loopTime (minTime number) }

/-- `-u`, and the second number of `-t`. -/
def setDmintime : LzbenchParams :=
  { p with dmintime := minTime number, dloopTime := loopTime (minTime number) }

end LzbenchParams

/-- One option: the letter, its number, and what follows.  The rest of an argument after `e` is
the encoder list. -/
def applyOption (o : Options) (letter : Char) (argument : List Char) :
    Except OptionExit (Options × List Char) :=
  let (number, numPtr) := scanNumber argument
  let p := o.params
  match letter with
  | 'b' => .ok ({ o with params := { p with chunkSize := number * 2 ^ 10 % 2 ^ 32 } }, numPtr)
  | 'c' => .ok ({ o with sortCol := toInt32 number }, numPtr)
  | 'e' => .ok ({ o with encoderList := some (String.ofList argument) }, [])
  | 'i' =>
    match secondNumber numPtr with
    | none => .ok ({ o with params := { p with cIters := number } }, numPtr)
    | some (second, numPtr) =>
      .ok ({ o with params := { p with cIters := number, dIters := second } }, numPtr)
  | 'j' => .ok ({ o with join := true }, numPtr)
  | 'm' => .ok ({ o with params := p.setMemLimit number }, numPtr)
  | 'o' => .ok ({ o with params := p.setTextformat number }, numPtr)
  | 'p' => .ok ({ o with params := { p with timetype := .ofNumber number } }, numPtr)
  | 'r' => .ok ({ o with recursive := true }, numPtr)
  | 'R' => .ok ({ o with params := { p with randomRead := true } }, numPtr)
  | 's' => .ok ({ o with params := { p with cspeed := number } }, numPtr)
  | 't' =>
    match secondNumber numPtr with
    | none => .ok ({ o with params := p.setCmintime number }, numPtr)
    | some (second, numPtr) =>
      .ok ({ o with params := (p.setCmintime number).setDmintime second }, numPtr)
  | 'u' => .ok ({ o with params := p.setDmintime number }, numPtr)
  | 'v' => .ok ({ o with params := { p with verbose := number } }, numPtr)
  | 'x' => .ok ({ o with realTime := false }, numPtr)
  | 'z' => .ok ({ o with params := { p with showSpeed := false } }, numPtr)
  | '-' => .error .usage
  | 'h' => .error .usage
  | 'l' => .error .list
  | _ => .error .unknownOption

/-- The letters of an argument.  Every letter is taken off it, so its length is enough fuel. -/
def readLetters : ℕ → Options → List Char → Except OptionExit Options
  | _, o, [] => .ok o
  | 0, o, _ :: _ => .ok o
  | fuel + 1, o, letter :: argument => do
    let r ← applyOption o letter argument
    readLetters fuel r.1 r.2

/-- The arguments up to the first that does not start with a dash; the rest are names. -/
def readOptions (o : Options) : List String → Except OptionExit (Options × List String)
  | [] => .ok (o, [])
  | arg :: rest =>
    match arg.toList with
    | '-' :: argument =>
      if argument = "-compress-only".toList then
        readOptions { o with params := { o.params with compressOnly := true } } rest
      else do
        let o ← readLetters argument.length o argument
        readOptions o rest
    | _ => .ok (o, arg :: rest)

/-- What an option leaves of its argument. -/
theorem applyOption_length {o : Options} {letter : Char} {argument : List Char}
    {r : Options × List Char} (h : applyOption o letter argument = .ok r) :
    r.2.length ≤ argument.length := by
  have hnumber : ∀ text : List Char, (scanNumber text).2.length ≤ text.length := fun text =>
    text.dropWhile_suffix _ |>.length_le
  have hsecond : ∀ text n rest, secondNumber text = some (n, rest) → rest.length ≤ text.length := by
    intro text n rest hrest
    simp only [secondNumber] at hrest
    split at hrest
    · rename_i text'
      cases hrest
      exact (hnumber text').trans (Nat.le_succ _)
    · cases hrest
  simp only [applyOption] at h
  split at h
  case h_3 =>
    cases h
    exact Nat.zero_le _
  case' h_4 => split at h
  case' h_12 => split at h
  all_goals
    cases h
    try first
      | exact hnumber argument
      | exact (hsecond _ _ _ ‹_›).trans (hnumber argument)

/-! ## The settings -/

/-- What the options can make of the sizes: multiples of a kilobyte and of a quarter of a
megabyte, in 32 bits. -/
structure Options.Settings (o : Options) : Prop where
  results_eq : o.params.results = []
  chunkSize : o.params.chunkSize = defaultParams.chunkSize ∨
    o.params.chunkSize < 2 ^ 32 ∧ 2 ^ 10 ∣ o.params.chunkSize
  memLimit : o.params.memLimit < 2 ^ 32 ∧ 2 ^ 18 ∣ o.params.memLimit

theorem settings_defaultOptions : defaultOptions.Settings :=
  ⟨rfl, Or.inl rfl, by decide, by decide⟩

/-- A size of `k` bits in 32 bits. -/
theorem shift_mod (number : ℕ) {k : ℕ} (hk : k ≤ 32) :
    number * 2 ^ k % 2 ^ 32 < 2 ^ 32 ∧ 2 ^ k ∣ number * 2 ^ k % 2 ^ 32 := by
  have hunit : 2 ^ k ∣ 2 ^ 32 := Nat.pow_dvd_pow 2 hk
  exact ⟨Nat.mod_lt _ (by norm_num), (Nat.dvd_mod_iff hunit).mpr (Nat.dvd_mul_left _ _)⟩

/-- One option. -/
theorem applyOption_settings {o : Options} {letter : Char} {argument : List Char}
    {r : Options × List Char} (ho : o.Settings) (h : applyOption o letter argument = .ok r) :
    r.1.Settings := by
  have hchunk := shift_mod (scanNumber argument).1 (show 10 ≤ 32 by decide)
  have hlimit := shift_mod (scanNumber argument).1 (show 18 ≤ 32 by decide)
  simp only [applyOption] at h
  split at h
  case h_1 =>
    cases h
    exact ⟨ho.results_eq, Or.inr hchunk, ho.memLimit⟩
  case h_6 =>
    cases h
    exact ⟨ho.results_eq, ho.chunkSize, hlimit⟩
  -- the other letters leave the sizes; two of them may have a second number
  case' h_4 => split at h
  case' h_12 => split at h
  all_goals
    cases h
    try exact ⟨ho.results_eq, ho.chunkSize, ho.memLimit⟩

theorem readLetters_settings {fuel : ℕ} {o o' : Options} {argument : List Char} (ho : o.Settings)
    (h : readLetters fuel o argument = .ok o') : o'.Settings := by
  induction fuel generalizing o argument with
  | zero => cases argument <;> cases h <;> exact ho
  | succ fuel ih =>
    cases argument with
    | nil =>
      cases h
      exact ho
    | cons letter argument =>
      obtain ⟨r, hr, h⟩ := bind_eq_ok.mp h
      exact ih (applyOption_settings ho hr) h

/-- All options. -/
theorem readOptions_settings {o o' : Options} {args names : List String} (ho : o.Settings)
    (h : readOptions o args = .ok (o', names)) : o'.Settings := by
  induction args generalizing o with
  | nil =>
    cases h
    exact ho
  | cons arg rest ih =>
    simp only [readOptions] at h
    split at h
    · rename_i argument _
      split at h
      · refine ih ?_ h
        exact ⟨ho.results_eq, ho.chunkSize, ho.memLimit⟩
      · obtain ⟨t, ht, h⟩ := bind_eq_ok.mp h
        exact ih (readLetters_settings ho ht) h
    · cases h
      exact ho

example : readOptions defaultOptions ["-b0", "-Rm1", "data"] =
    .ok ({ defaultOptions with
      params := { defaultParams with
        chunkSize := 0, randomRead := true, memLimit := 2 ^ 18, textformat := .textFull } },
      ["data"]) := by decide

end Lzbench
