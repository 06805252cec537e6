import Lzbench.Options

/-!
# The items of an argument

What an argument says does not depend on what the options before it have set.  It is a row of
items, a letter each with its numbers, and a command line is a row of steps; the parser reads
them off and applies one after the other.

## Main definitions

* `setOption` — what a letter does with its numbers.
* `OptionItem`, `takeItem`, `readItems` — an item, and how it is read off an argument.
* `OptionStep`, `optionSteps` — the steps of a command line.
* `readOptions_eq` — the parser applies the steps.
* `itemsOf_append` — the items of two texts that can be told apart.
-/

namespace Lzbench

open Imperative

/-- What a letter does, with its number, the number after a comma, and the rest of the argument.
Only `i` and `t` have a second number, and only `e` takes the rest. -/
def setOption (o : Options) (letter : Char) (number : ℕ) (second : Option ℕ) (text : List Char) :
    Except OptionExit Options :=
  let p := o.params
  match letter with
  | 'b' => .ok { o with params := { p with chunkSize := number * 2 ^ 10 % 2 ^ 32 } }
  | 'c' => .ok { o with sortCol := toInt32 number }
  | 'e' => .ok { o with encoderList := some (String.ofList text) }
  | 'i' =>
    match second with
    | none => .ok { o with params := { p with cIters := number } }
    | some second => .ok { o with params := { p with cIters := number, dIters := second } }
  | 'j' => .ok { o with join := true }
  | 'm' => .ok { o with params := p.setMemLimit number }
  | 'o' => .ok { o with params := p.setTextformat number }
  | 'p' => .ok { o with params := { p with timetype := .ofNumber number } }
  | 'r' => .ok { o with recursive := true }
  | 'R' => .ok { o with params := { p with randomRead := true } }
  | 's' => .ok { o with params := { p with cspeed := number } }
  | 't' =>
    match second with
    | none => .ok { o with params := p.setCmintime number }
    | some second => .ok { o with params := (p.setCmintime number).setDmintime second }
  | 'u' => .ok { o with params := p.setDmintime number }
  | 'v' => .ok { o with params := { p with verbose := number } }
  | 'x' => .ok { o with realTime := false }
  | 'z' => .ok { o with params := { p with showSpeed := false } }
  | '-' => .error .usage
  | 'h' => .error .usage
  | 'l' => .error .list
  | _ => .error .unknownOption

/-- An option as it is written. -/
structure OptionItem where
  letter : Char
  digits : List Char
  second : Option (List Char)
  text : List Char
  deriving DecidableEq

/-- The letters that may have a second number. -/
def takesSecond (letter : Char) : Bool := letter = 'i' ∨ letter = 't'

/-- The item with this letter, and what of the argument follows it. -/
def takeItem (letter : Char) (argument : List Char) : OptionItem × List Char :=
  if letter = 'e' then (⟨letter, [], none, argument⟩, [])
  else
    let digits := argument.takeWhile Char.isDigit
    match takesSecond letter, argument.dropWhile Char.isDigit with
    | true, ',' :: rest =>
      (⟨letter, digits, some (rest.takeWhile Char.isDigit), []⟩, rest.dropWhile Char.isDigit)
    | _, rest => (⟨letter, digits, none, []⟩, rest)

/-- The value of digits, in 32 bits. -/
def number32 (digits : List Char) : ℕ :=
  digits.foldl (fun number c => (number * 10 + (c.toNat - 48)) % 2 ^ 32) 0

/-- What an item does. -/
def OptionItem.apply (o : Options) (it : OptionItem) : Except OptionExit Options :=
  setOption o it.letter (number32 it.digits) (it.second.map number32) it.text

/-- The items of an argument, of which there are no more than letters. -/
def readItems : ℕ → List Char → List OptionItem
  | _, [] => []
  | 0, _ :: _ => []
  | fuel + 1, letter :: argument =>
    (takeItem letter argument).1 :: readItems fuel (takeItem letter argument).2

/-- The items of an argument. -/
def itemsOf (argument : List Char) : List OptionItem := readItems argument.length argument

theorem takeItem_length (letter : Char) (argument : List Char) :
    (takeItem letter argument).2.length ≤ argument.length := by
  have hdrop : ∀ text : List Char, (text.dropWhile Char.isDigit).length ≤ text.length :=
    fun text => text.dropWhile_suffix _ |>.length_le
  simp only [takeItem]
  split
  · exact Nat.zero_le _
  · split
    · rename_i rest _ hcomma
      have hlen := hdrop argument
      rw [hcomma, List.length_cons] at hlen
      exact (hdrop rest).trans (by omega)
    · exact hdrop argument

/-- A letter without a second number. -/
theorem takeItem_single {letter : Char} (he : letter ≠ 'e') (hsecond : takesSecond letter = false)
    (argument : List Char) :
    takeItem letter argument =
      (⟨letter, argument.takeWhile Char.isDigit, none, []⟩, argument.dropWhile Char.isDigit) := by
  simp [takeItem, he, hsecond]

/-- A letter that may have one, and has none. -/
theorem takeItem_none {letter : Char} (he : letter ≠ 'e') {argument : List Char}
    (hnone : secondNumber (argument.dropWhile Char.isDigit) = none) :
    takeItem letter argument =
      (⟨letter, argument.takeWhile Char.isDigit, none, []⟩, argument.dropWhile Char.isDigit) := by
  simp only [takeItem, he, if_false]
  split
  · rename_i rest _ hcomma
    rw [hcomma] at hnone
    cases hnone
  · rfl

/-- One that has one. -/
theorem takeItem_some {letter : Char} (he : letter ≠ 'e') (hsecond : takesSecond letter = true)
    {argument : List Char} {r : ℕ × List Char}
    (hsome : secondNumber (argument.dropWhile Char.isDigit) = some r) :
    ∃ digits, number32 digits = r.1 ∧
      takeItem letter argument =
        (⟨letter, argument.takeWhile Char.isDigit, some digits, []⟩, r.2) := by
  cases hrest : argument.dropWhile Char.isDigit with
  | nil =>
    rw [hrest] at hsome
    cases hsome
  | cons c rest =>
    simp only [hrest, secondNumber] at hsome
    split at hsome
    · rename_i text htext
      cases htext
      cases hsome
      refine ⟨rest.takeWhile Char.isDigit, rfl, ?_⟩
      simp only [takeItem, he, if_false, hsecond, hrest]
      rfl
    · cases hsome

theorem takeItem_letter (letter : Char) (argument : List Char) :
    (takeItem letter argument).1.letter = letter := by
  simp only [takeItem]
  split
  · rfl
  · split <;> rfl

/-- The letter and its item are what one option reads. -/
theorem applyOption_eq (o : Options) (letter : Char) (argument : List Char) :
    applyOption o letter argument =
      ((takeItem letter argument).1.apply o).map (·, (takeItem letter argument).2) := by
  simp only [applyOption]
  split
  case h_3 => rfl
  case h_4 =>
    cases hsecond : secondNumber (argument.dropWhile Char.isDigit) with
    | none =>
      simp only [scanNumber, hsecond, takeItem_none (by decide : 'i' ≠ 'e') hsecond]
      rfl
    | some r =>
      obtain ⟨digits, hdigits, htake⟩ := takeItem_some (by decide : 'i' ≠ 'e') rfl hsecond
      simp only [scanNumber, hsecond, htake, OptionItem.apply, setOption, Option.map_some, hdigits]
      rfl
  case h_12 =>
    cases hsecond : secondNumber (argument.dropWhile Char.isDigit) with
    | none =>
      simp only [scanNumber, hsecond, takeItem_none (by decide : 't' ≠ 'e') hsecond]
      rfl
    | some r =>
      obtain ⟨digits, hdigits, htake⟩ := takeItem_some (by decide : 't' ≠ 'e') rfl hsecond
      simp only [scanNumber, hsecond, htake, OptionItem.apply, setOption, Option.map_some, hdigits]
      rfl
  case h_20 =>
    have hletter : ((takeItem letter argument).1).letter = letter := takeItem_letter letter argument
    have hunknown : ∀ number second text, setOption o letter number second text =
        .error .unknownOption := by
      intro number second text
      simp only [setOption]
    simp only [OptionItem.apply, hletter, hunknown]
    rfl
  all_goals
    rw [takeItem_single (by decide) rfl]
    rfl

/-! ## Arguments and command lines -/

/-- The parser applies the items of an argument. -/
theorem readLetters_eq (fuel : ℕ) (o : Options) (argument : List Char) :
    readLetters fuel o argument = (readItems fuel argument).foldlM OptionItem.apply o := by
  induction fuel generalizing o argument with
  | zero => cases argument <;> rfl
  | succ fuel ih =>
    cases argument with
    | nil => rfl
    | cons letter argument =>
      simp only [readLetters, readItems, List.foldlM_cons, applyOption_eq]
      cases (takeItem letter argument).1.apply o with
      | error e => rfl
      | ok o' => exact ih o' _

/-- More fuel than the length changes nothing. -/
theorem readItems_fuel {fuel fuel' : ℕ} {argument : List Char} (h : argument.length ≤ fuel)
    (h' : argument.length ≤ fuel') : readItems fuel argument = readItems fuel' argument := by
  induction fuel generalizing fuel' argument with
  | zero =>
    obtain rfl := List.length_eq_zero_iff.mp (Nat.le_zero.mp h)
    cases fuel' <;> rfl
  | succ fuel ih =>
    cases argument with
    | nil => cases fuel' <;> rfl
    | cons letter argument =>
      cases fuel' with
      | zero => exact absurd h' (Nat.not_succ_le_zero _)
      | succ fuel' =>
        have hlen := takeItem_length letter argument
        simp only [List.length_cons] at h h'
        simp only [readItems]
        rw [ih (by omega) (by omega : (takeItem letter argument).2.length ≤ fuel')]

theorem readLetters_fuel {fuel fuel' : ℕ} {o : Options} {argument : List Char}
    (h : argument.length ≤ fuel) (h' : argument.length ≤ fuel') :
    readLetters fuel o argument = readLetters fuel' o argument := by
  rw [readLetters_eq, readLetters_eq, readItems_fuel h h']

@[simp] theorem itemsOf_nil : itemsOf [] = [] := rfl

theorem itemsOf_cons (letter : Char) (argument : List Char) :
    itemsOf (letter :: argument) =
      (takeItem letter argument).1 :: itemsOf (takeItem letter argument).2 := by
  have hlen := takeItem_length letter argument
  rw [itemsOf, List.length_cons, readItems]
  exact congrArg _ (readItems_fuel hlen le_rfl)

/-- A step of a command line. -/
inductive OptionStep
  | compressOnly
  | item (it : OptionItem)

/-- What a step does. -/
def OptionStep.apply (o : Options) : OptionStep → Except OptionExit Options
  | compressOnly => .ok { o with params := { o.params with compressOnly := true } }
  | item it => it.apply o

/-- The steps of an argument behind its dash. -/
def argumentSteps (argument : List Char) : List OptionStep :=
  if argument = "-compress-only".toList then [.compressOnly]
  else (itemsOf argument).map .item

/-- The steps of a command line, and the names behind the options. -/
def optionSteps : List String → List OptionStep × List String
  | [] => ([], [])
  | arg :: rest =>
    match arg.toList with
    | '-' :: argument => (argumentSteps argument ++ (optionSteps rest).1, (optionSteps rest).2)
    | _ => ([], arg :: rest)

theorem optionSteps_dash {arg : String} {argument : List Char} (h : arg.toList = '-' :: argument)
    (rest : List String) : optionSteps (arg :: rest) =
      (argumentSteps argument ++ (optionSteps rest).1, (optionSteps rest).2) := by
  simp only [optionSteps, h]

theorem optionSteps_name {arg : String} (h : ∀ argument, arg.toList ≠ '-' :: argument)
    (rest : List String) : optionSteps (arg :: rest) = ([], arg :: rest) := by
  simp only [optionSteps]

/-- The steps of one argument. -/
theorem foldlM_argumentSteps (o : Options) (argument : List Char) :
    (argumentSteps argument).foldlM OptionStep.apply o =
      if argument = "-compress-only".toList then
        .ok { o with params := { o.params with compressOnly := true } }
      else readLetters argument.length o argument := by
  rw [argumentSteps]
  split
  · rfl
  · rw [readLetters_eq, List.foldlM_map]
    rfl

/-- The parser applies the steps of the command line. -/
theorem readOptions_eq (o : Options) (args : List String) :
    readOptions o args =
      ((optionSteps args).1.foldlM OptionStep.apply o).map (·, (optionSteps args).2) := by
  induction args generalizing o with
  | nil => rfl
  | cons arg rest ih =>
    simp only [readOptions]
    split
    · rename_i argument harg
      rw [optionSteps_dash harg, List.foldlM_append, foldlM_argumentSteps]
      split
      · exact ih _
      · cases readLetters argument.length o argument with
        | error e => rfl
        | ok o' => exact ih o'
    · rename_i hname
      rw [optionSteps_name hname]
      rfl

/-! ## Texts side by side -/

/-- A text that does not go on with a number. -/
def NoNumber (text : List Char) : Prop := ∀ c ∈ text.head?, c.isDigit = false ∧ c ≠ ','

theorem takeWhile_append {s t : List Char} (ht : NoNumber t) :
    (s ++ t).takeWhile Char.isDigit = s.takeWhile Char.isDigit ∧
      (s ++ t).dropWhile Char.isDigit = s.dropWhile Char.isDigit ++ t := by
  induction s with
  | nil =>
    cases t with
    | nil => exact ⟨rfl, rfl⟩
    | cons c t =>
      have hc := (ht c rfl).1
      simp [hc]
  | cons c s ih =>
    cases hc : c.isDigit with
    | true => simp [hc, ih]
    | false => simp [hc]

/-- An item is read alike in front of another text. -/
theorem takeItem_append {letter : Char} (he : letter ≠ 'e') {s t : List Char} (ht : NoNumber t) :
    takeItem letter (s ++ t) = ((takeItem letter s).1, (takeItem letter s).2 ++ t) := by
  obtain ⟨htake, hdrop⟩ := takeWhile_append (s := s) ht
  cases hsecond : takesSecond letter with
  | false => rw [takeItem_single he hsecond, takeItem_single he hsecond, htake, hdrop]
  | true =>
    simp only [takeItem, he, if_false, hsecond, htake, hdrop]
    cases hrest : s.dropWhile Char.isDigit with
    | nil =>
      cases t with
      | nil => rfl
      | cons c t =>
        have hc : c ≠ ',' := (ht c rfl).2
        simp [hc]
    | cons c rest =>
      by_cases hc : c = ','
      · subst hc
        obtain ⟨htake', hdrop'⟩ := takeWhile_append (s := rest) ht
        simp only [List.cons_append, htake', hdrop']
      · simp [hc]

/-- The items of two texts that can be told apart. -/
theorem itemsOf_append {s t : List Char} (hs : ∀ it ∈ itemsOf s, it.letter ≠ 'e')
    (ht : NoNumber t) : itemsOf (s ++ t) = itemsOf s ++ itemsOf t := by
  induction hn : s.length using Nat.strongRecOn generalizing s with
  | ind n ih =>
    cases s with
    | nil => rfl
    | cons letter s =>
      rw [itemsOf_cons, List.forall_mem_cons, takeItem_letter] at hs
      have hlen := takeItem_length letter s
      rw [List.length_cons] at hn
      rw [List.cons_append, itemsOf_cons, itemsOf_cons, takeItem_append hs.1 ht,
        ih _ (by omega) hs.2 rfl, List.cons_append]

end Lzbench
