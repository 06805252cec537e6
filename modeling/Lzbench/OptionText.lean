import Lzbench.OptionItems

/-!
# Reading the options by pointer

`main` walks over its arguments with two pointers, `argument` and `numPtr`, and looks at every
character through one of them.  Here an argument is a text with a terminator, a pointer is an
index, and a look beyond the terminator is undefined.  The loops recurse on fuel.

## Main definitions

* `charAt` — a look at a character.
* `scanNumberAt`, `strlenAt`, `strcmpAt` — the loops over characters.
* `readOptionAt`, `readArgumentAt`, `readOptionsAt` — the parser.
* `readOptionsAt_eq` — it is the parser of lists, and ends.
* `aggregated_options` — options in one argument or in two.
-/

namespace Lzbench

open Imperative

/-- The terminator. -/
def nul : Char := Char.ofNat 0

/-- The character at an index of a text. -/
def charAt (text : List Char) (i : ℕ) : Except Stop Char :=
  match text[i]? with
  | some c => .ok c
  | none => if i = text.length then .ok nul else .error .undefined

/-- `while ((*numPtr >= '0') && (*numPtr <= '9'))`, with the number and the pointer. -/
def scanNumberAt (text : List Char) : ℕ → ℕ → ℕ → Except Stop (ℕ × ℕ)
  | 0, _, _ => .error .hang
  | fuel + 1, number, numPtr => do
      let c ← charAt text numPtr
      if c.isDigit then
        scanNumberAt text fuel ((number * 10 + (c.toNat - 48)) % 2 ^ 32) (numPtr + 1)
      else .ok (number, numPtr)

/-- `strlen`. -/
def strlenAt (text : List Char) : ℕ → ℕ → Except Stop ℕ
  | 0, _ => .error .hang
  | fuel + 1, i => do
      let c ← charAt text i
      if c = nul then .ok 0
      else do
        let n ← strlenAt text fuel (i + 1)
        .ok (n + 1)

/-- `!strcmp` with a text that is written out. -/
def strcmpAt (text : List Char) (i : ℕ) : List Char → Except Stop Bool
  | [] => do
      let c ← charAt text i
      .ok (c = nul)
  | d :: literal => do
      let c ← charAt text i
      if c = d then strcmpAt text (i + 1) literal else .ok false

/-- How the parser stops: within the options, or outside of what C defines. -/
inductive ParseExit
  | stop (e : Stop)
  | exit (e : OptionExit)

/-- What is read of an option, and the pointer behind it. -/
structure OptionRead where
  letter : Char
  number : ℕ
  second : Option ℕ
  text : List Char
  numPtr : ℕ

/-- One option, at the pointer `argument`. -/
def readOptionAt (text : List Char) (fuel argument : ℕ) : Except Stop OptionRead := do
  let letter ← charAt text argument
  let r ← scanNumberAt text fuel 0 (argument + 1)
  if letter = 'e' then do
    let n ← strlenAt text fuel (argument + 1)
    let rest ← strlenAt text fuel r.2
    .ok ⟨letter, r.1, none, (text.drop (argument + 1)).take n, r.2 + rest⟩
  else if takesSecond letter then do
    let c ← charAt text r.2
    if c = ',' then do
      let s ← scanNumberAt text fuel 0 (r.2 + 1)
      .ok ⟨letter, r.1, some s.1, [], s.2⟩
    else .ok ⟨letter, r.1, none, [], r.2⟩
  else .ok ⟨letter, r.1, none, [], r.2⟩

/-- What stops a look stops the parser. -/
def orStop {α : Type} : Except Stop α → Except ParseExit α
  | .ok a => .ok a
  | .error e => .error (.stop e)

/-- What ends the options ends the parser. -/
def orExit {α : Type} : Except OptionExit α → Except ParseExit α
  | .ok a => .ok a
  | .error e => .error (.exit e)

/-- `while (argument[0] != 0)`.  The loops inside take no more rounds than there are
characters. -/
def readArgumentAt (text : List Char) : ℕ → Options → ℕ → Except ParseExit Options
  | 0, _, _ => .error (.stop .hang)
  | fuel + 1, o, argument => do
      let c ← orStop (charAt text argument)
      if c = nul then .ok o
      else do
        let r ← orStop (readOptionAt text (text.length + 1) argument)
        let o ← orExit (setOption o r.letter r.number r.second r.text)
        readArgumentAt text fuel o r.numPtr

/-- `while ((argc > 1) && (argv[1][0] == '-'))`. -/
def readOptionsAt (o : Options) : List String → Except ParseExit (Options × List String)
  | [] => .ok (o, [])
  | arg :: rest => do
      let c ← orStop (charAt arg.toList 0)
      if c = '-' then do
        let only ← orStop (strcmpAt arg.toList 1 "-compress-only".toList)
        if only then
          readOptionsAt { o with params := { o.params with compressOnly := true } } rest
        else do
          let o ← readArgumentAt arg.toList (arg.toList.length + 1) o 1
          readOptionsAt o rest
      else .ok (o, arg :: rest)

/-! ## Pointers into a text -/

/-- `rest` is what the index points at. -/
structure Points (text : List Char) (i : ℕ) (rest : List Char) : Prop where
  drop_eq : text.drop i = rest
  le : i ≤ text.length

section Points

variable {text rest : List Char} {c : Char} {i : ℕ}

theorem Points.start (text : List Char) : Points text 0 text := ⟨rfl, Nat.zero_le _⟩

theorem Points.finish (text : List Char) : Points text text.length [] :=
  ⟨text.drop_length, le_rfl⟩

theorem Points.length_eq (h : Points text i rest) : i + rest.length = text.length := by
  have hle := h.le
  rw [← h.drop_eq, List.length_drop]
  omega

theorem Points.mem (h : Points text i rest) (hc : c ∈ rest) : c ∈ text := by
  rw [← h.drop_eq] at hc
  exact List.mem_of_mem_drop hc

/-- The terminator is looked at. -/
theorem Points.charAt_nil (h : Points text i []) : charAt text i = .ok nul := by
  have hi : i = text.length := h.length_eq
  simp [charAt, hi]

theorem Points.charAt_cons (h : Points text i (c :: rest)) : charAt text i = .ok c := by
  have hget : text[i]? = some c := by
    rw [← List.head?_drop, h.drop_eq]
    rfl
  simp [charAt, hget]

theorem Points.next (h : Points text i (c :: rest)) : Points text (i + 1) rest := by
  constructor
  · rw [← List.tail_drop, h.drop_eq]
    rfl
  · have hlen := h.length_eq
    rw [List.length_cons] at hlen
    omega

/-- The digits are read, and the pointer is behind them. -/
theorem Points.scanNumberAt {fuel : ℕ} (number : ℕ) (h : Points text i rest)
    (hfuel : rest.length < fuel) :
    ∃ j, Lzbench.scanNumberAt text fuel number i =
        .ok ((rest.takeWhile Char.isDigit).foldl
          (fun number c => (number * 10 + (c.toNat - 48)) % 2 ^ 32) number, j) ∧
      i ≤ j ∧ Points text j (rest.dropWhile Char.isDigit) := by
  induction rest generalizing fuel number i with
  | nil =>
    obtain ⟨fuel, rfl⟩ := Nat.exists_eq_succ_of_ne_zero (by omega : fuel ≠ 0)
    refine ⟨i, ?_, le_rfl, h⟩
    simp only [Lzbench.scanNumberAt, h.charAt_nil]
    rfl
  | cons c rest ih =>
    rw [List.length_cons] at hfuel
    obtain ⟨fuel, rfl⟩ := Nat.exists_eq_succ_of_ne_zero (by omega : fuel ≠ 0)
    simp only [Lzbench.scanNumberAt, h.charAt_cons]
    cases hc : c.isDigit with
    | true =>
      have hrest : rest.length < fuel := by omega
      obtain ⟨j, hj, hle, hpoints⟩ := ih ((number * 10 + (c.toNat - 48)) % 2 ^ 32) h.next hrest
      refine ⟨j, ?_, by omega, ?_⟩
      · simp only [bind, Except.bind, List.takeWhile_cons, hc, if_true, List.foldl_cons]
        exact hj
      · rw [List.dropWhile_cons_of_pos hc]
        exact hpoints
    | false =>
      refine ⟨i, ?_, le_rfl, ?_⟩
      · simp [bind, Except.bind, hc]
      · rw [List.dropWhile_cons_of_neg (by simp [hc])]
        exact h

theorem Points.strlenAt {fuel : ℕ} (h : Points text i rest) (hnul : nul ∉ rest)
    (hfuel : rest.length < fuel) : Lzbench.strlenAt text fuel i = .ok rest.length := by
  induction rest generalizing fuel i with
  | nil =>
    obtain ⟨fuel, rfl⟩ := Nat.exists_eq_succ_of_ne_zero (by omega : fuel ≠ 0)
    simp only [Lzbench.strlenAt, h.charAt_nil]
    rfl
  | cons c rest ih =>
    rw [List.length_cons] at hfuel
    obtain ⟨fuel, rfl⟩ := Nat.exists_eq_succ_of_ne_zero (by omega : fuel ≠ 0)
    rw [List.mem_cons, not_or] at hnul
    have hlen := ih h.next hnul.2 (by omega : rest.length < fuel)
    simp only [Lzbench.strlenAt, h.charAt_cons, bind, Except.bind, if_neg (Ne.symm hnul.1), hlen,
      List.length_cons]

theorem Points.strcmpAt {literal : List Char} (h : Points text i rest) (hnul : nul ∉ rest)
    (hliteral : nul ∉ literal) :
    Lzbench.strcmpAt text i literal = .ok (decide (rest = literal)) := by
  induction literal generalizing rest i with
  | nil =>
    cases rest with
    | nil =>
      simp only [Lzbench.strcmpAt, h.charAt_nil]
      rfl
    | cons c rest =>
      rw [List.mem_cons, not_or] at hnul
      have hc : c ≠ nul := Ne.symm hnul.1
      simp [Lzbench.strcmpAt, h.charAt_cons, bind, Except.bind, hc]
  | cons d literal ih =>
    rw [List.mem_cons, not_or] at hliteral
    cases rest with
    | nil => simp [Lzbench.strcmpAt, h.charAt_nil, bind, Except.bind, hliteral.1]
    | cons c rest =>
      rw [List.mem_cons, not_or] at hnul
      have htail := ih h.next hnul.2 hliteral.2
      simp only [Lzbench.strcmpAt, h.charAt_cons, bind, Except.bind, htail]
      split
      · rename_i hc
        simp [hc]
      · rename_i hc
        simp [hc]

end Points

/-! ## The parser of lists -/

section Parser

variable {text argument : List Char} {letter : Char} {i : ℕ}

/-- What an item without a second number does, and one with it. -/
theorem apply_none (letter : Char) (digits : List Char) (o : Options) :
    setOption o letter (number32 digits) none [] =
      OptionItem.apply o ⟨letter, digits, none, []⟩ := rfl

theorem apply_some (letter : Char) (digits second : List Char) (o : Options) :
    setOption o letter (number32 digits) (some (number32 second)) [] =
      OptionItem.apply o ⟨letter, digits, some second, []⟩ := rfl

/-- One option is the item that is taken off the front. -/
theorem Points.readOptionAt (h : Points text i (letter :: argument)) (hnul : nul ∉ text) :
    ∃ r, Lzbench.readOptionAt text (text.length + 1) i = .ok r ∧
      (∀ o, setOption o r.letter r.number r.second r.text =
        (takeItem letter argument).1.apply o) ∧
      Points text r.numPtr (takeItem letter argument).2 := by
  have hlen := h.length_eq
  rw [List.length_cons] at hlen
  have hargument : nul ∉ argument := fun hmem => hnul (h.next.mem hmem)
  obtain ⟨j, hj, hle, hpoints⟩ :=
    h.next.scanNumberAt 0 (by omega : argument.length < text.length + 1)
  have hrest := hpoints.length_eq
  simp only [Lzbench.readOptionAt, h.charAt_cons, hj, bind, Except.bind]
  by_cases he : letter = 'e'
  · -- the digits that were read are part of the list, and the number is not used
    have hnul' : nul ∉ argument.dropWhile Char.isDigit := fun hmem => hnul (hpoints.mem hmem)
    have hstrlen := h.next.strlenAt hargument (by omega : argument.length < text.length + 1)
    have hstrlen' := hpoints.strlenAt hnul'
      (by omega : (argument.dropWhile Char.isDigit).length < text.length + 1)
    simp only [he, if_true, hstrlen, hstrlen']
    refine ⟨_, rfl, ?_, ?_⟩
    · intro o
      simp only [h.next.drop_eq, List.take_length, takeItem, if_true, OptionItem.apply, setOption]
    · simp only [hrest]
      exact Points.finish text
  · simp only [he, if_false]
    cases hsecond : takesSecond letter with
    | false =>
      simp only [Bool.false_eq_true, if_false, takeItem_single he hsecond]
      exact ⟨_, rfl, apply_none letter _, hpoints⟩
    | true =>
      simp only [if_true]
      cases hcomma : argument.dropWhile Char.isDigit with
      | nil =>
        rw [hcomma] at hpoints
        rw [takeItem_none he (by simp [hcomma, secondNumber]), hcomma]
        simp only [hpoints.charAt_nil]
        exact ⟨_, rfl, apply_none letter _, hpoints⟩
      | cons c rest =>
        rw [hcomma] at hpoints hrest
        rw [List.length_cons] at hrest
        simp only [hpoints.charAt_cons]
        by_cases hc : c = ','
        · obtain ⟨k, hk, -, hpoints'⟩ :=
            hpoints.next.scanNumberAt 0 (by omega : rest.length < text.length + 1)
          subst hc
          simp only [if_true, hk, takeItem, he, if_false, hsecond, hcomma]
          exact ⟨_, rfl, apply_some letter _ _, hpoints'⟩
        · rw [takeItem_none he (by simp [hcomma, secondNumber, hc]), hcomma]
          simp only [hc, if_false]
          exact ⟨_, rfl, apply_none letter _, hpoints⟩

/-- An argument is its items. -/
theorem Points.readArgumentAt {fuel : ℕ} (o : Options) (h : Points text i argument)
    (hnul : nul ∉ text) (hfuel : argument.length < fuel) :
    Lzbench.readArgumentAt text fuel o i =
      orExit ((itemsOf argument).foldlM OptionItem.apply o) := by
  induction fuel generalizing o i argument with
  | zero => omega
  | succ fuel ih =>
    cases argument with
    | nil =>
      simp only [Lzbench.readArgumentAt, h.charAt_nil]
      rfl
    | cons letter argument =>
      obtain ⟨r, hr, hset, hpoints⟩ := h.readOptionAt hnul
      have hletter : letter ≠ nul := by
        intro heq
        subst heq
        exact hnul (h.mem (List.mem_cons_self ..))
      have hlen := takeItem_length letter argument
      rw [List.length_cons] at hfuel
      simp only [Lzbench.readArgumentAt, h.charAt_cons, orStop, bind, Except.bind, hletter,
        if_false, hr, hset, itemsOf_cons, List.foldlM_cons]
      cases (takeItem letter argument).1.apply o with
      | error e => rfl
      | ok o' => exact ih o' hpoints (by omega)

end Parser

/-- The parser over arguments is the one over lists: it looks at nothing beyond a terminator,
and it ends. -/
theorem readOptionsAt_eq (o : Options) {args : List String}
    (hnul : ∀ arg ∈ args, nul ∉ arg.toList) :
    readOptionsAt o args = orExit (readOptions o args) := by
  induction args generalizing o with
  | nil => rfl
  | cons arg rest ih =>
    rw [List.forall_mem_cons] at hnul
    have hstart := Points.start arg.toList
    simp only [readOptionsAt, readOptions]
    cases harg : arg.toList with
    | nil =>
      rw [harg] at hstart
      simp only [hstart.charAt_nil]
      rfl
    | cons c argument =>
      rw [harg] at hstart hnul
      simp only [hstart.charAt_cons, orStop, bind, Except.bind]
      by_cases hc : c = '-'
      · have hnul' : nul ∉ argument := fun hmem => hnul.1 (List.mem_cons_of_mem c hmem)
        have hcmp := hstart.next.strcmpAt hnul' (by decide : nul ∉ "-compress-only".toList)
        subst hc
        simp only [if_true, hcmp, decide_eq_true_eq]
        split
        · exact ih _ hnul.2
        · have hlen : argument.length < ('-' :: argument).length + 1 := by
            simp only [List.length_cons]
            omega
          have hread := hstart.next.readArgumentAt o hnul.1 hlen
          rw [hread, readLetters_eq, itemsOf]
          cases (readItems argument.length argument).foldlM OptionItem.apply o with
          | error e => rfl
          | ok o' => exact ih o' hnul.2
      · simp only [hc, if_false]
        split
        · rename_i hdash
          cases hdash
          exact (hc rfl).elim
        · rfl

/-! ## Aggregated options -/

/-- An argument that does not go on with a dash is no long option. -/
theorem argumentSteps_of_head {argument : List Char} (h : argument.head? ≠ some '-') :
    argumentSteps argument = (itemsOf argument).map .item := by
  rw [argumentSteps, if_neg]
  rintro rfl
  exact h rfl

/-- What stands before the names stays what it is, whatever the steps behind are written as. -/
theorem optionSteps_append {rest rest' : List String}
    (h : (optionSteps rest).1 = (optionSteps rest').1) (pre : List String) :
    (optionSteps (pre ++ rest)).1 = (optionSteps (pre ++ rest')).1 := by
  induction pre with
  | nil => exact h
  | cons arg pre ih =>
    simp only [List.cons_append, optionSteps]
    split
    · simp only [ih]
    · rfl

/-- One argument or two, the steps are the same. -/
theorem optionSteps_aggregated {s t : String} (hdash : s.toList.head? ≠ some '-')
    (hlist : ∀ it ∈ itemsOf s.toList, it.letter ≠ 'e')
    (ht : ∀ c ∈ t.toList.head?, c.isDigit = false ∧ c ≠ ',' ∧ c ≠ '-') (post : List String) :
    (optionSteps (("-" ++ s ++ t) :: post)).1 =
      (optionSteps (("-" ++ s) :: ("-" ++ t) :: post)).1 := by
  have htdash : t.toList.head? ≠ some '-' := fun hd => (ht _ hd).2.2 rfl
  have hstdash : (s.toList ++ t.toList).head? ≠ some '-' := by
    cases hs : s.toList with
    | nil => exact htdash
    | cons c s' =>
      rw [hs] at hdash
      exact hdash
  have happend := itemsOf_append hlist fun c hc => ⟨(ht c hc).1, (ht c hc).2.1⟩
  rw [optionSteps_dash (by simp : ("-" ++ s ++ t).toList = '-' :: (s.toList ++ t.toList)),
    optionSteps_dash (by simp : ("-" ++ s).toList = '-' :: s.toList),
    optionSteps_dash (by simp : ("-" ++ t).toList = '-' :: t.toList),
    argumentSteps_of_head hstdash, argumentSteps_of_head hdash, argumentSteps_of_head htdash,
    happend, List.map_append, List.append_assoc]

/-- What the options set depends on the steps alone. -/
theorem map_readOptionsAt (o : Options) {args : List String}
    (hnul : ∀ arg ∈ args, nul ∉ arg.toList) :
    (readOptionsAt o args).map Prod.fst =
      orExit ((optionSteps args).1.foldlM OptionStep.apply o) := by
  rw [readOptionsAt_eq o hnul, readOptions_eq]
  cases (optionSteps args).1.foldlM OptionStep.apply o <;> rfl

/-- Options in one argument set what they set in two, or end the options in the same way; and
the parser ends for all arguments without a look beyond a terminator. -/
theorem aggregated_options {s t : String} (hnul : nul ∉ s.toList ∧ nul ∉ t.toList)
    (hdash : s.toList.head? ≠ some '-') (hlist : ∀ it ∈ itemsOf s.toList, it.letter ≠ 'e')
    (ht : ∀ c ∈ t.toList.head?, c.isDigit = false ∧ c ≠ ',' ∧ c ≠ '-') :
    (∀ (o : Options) (pre post : List String), (∀ arg ∈ pre ++ post, nul ∉ arg.toList) →
      ∃ r : Except OptionExit Options,
        (readOptionsAt o (pre ++ ("-" ++ s ++ t) :: post)).map Prod.fst = orExit r ∧
        (readOptionsAt o (pre ++ ("-" ++ s) :: ("-" ++ t) :: post)).map Prod.fst = orExit r) ∧
    ∀ (o : Options) (args : List String), (∀ arg ∈ args, nul ∉ arg.toList) →
      ∃ r : Except OptionExit (Options × List String), readOptionsAt o args = orExit r := by
  constructor
  · intro o pre post hargs
    have hminus : nul ∉ "-".toList := by decide
    rw [List.forall_mem_append] at hargs
    have hsteps := optionSteps_append (optionSteps_aggregated hdash hlist ht post) pre
    refine ⟨(optionSteps (pre ++ ("-" ++ s) :: ("-" ++ t) :: post)).1.foldlM OptionStep.apply o,
      ?_, ?_⟩
    · rw [map_readOptionsAt, hsteps]
      rw [List.forall_mem_append, List.forall_mem_cons]
      refine ⟨hargs.1, ?_, hargs.2⟩
      simp only [String.toList_append, List.mem_append, not_or]
      exact ⟨⟨hminus, hnul.1⟩, hnul.2⟩
    · rw [map_readOptionsAt]
      rw [List.forall_mem_append, List.forall_mem_cons, List.forall_mem_cons]
      simp only [String.toList_append, List.mem_append, not_or]
      exact ⟨hargs.1, ⟨hminus, hnul.1⟩, ⟨hminus, hnul.2⟩, hargs.2⟩
  · intro o args hargs
    exact ⟨readOptions o args, readOptionsAt_eq o hargs⟩

/-- `-t0u0i3j5 -ezstd fname`, the example of the usage text, with `-t0u0 -i3j5` instead. -/
theorem aggregated_options_usage :
    ∃ r : Except OptionExit Options,
      (readOptionsAt defaultOptions ["-" ++ "t0u0" ++ "i3j5", "-ezstd", "fname"]).map Prod.fst =
        orExit r ∧
      (readOptionsAt defaultOptions
        ["-" ++ "t0u0", "-" ++ "i3j5", "-ezstd", "fname"]).map Prod.fst = orExit r :=
  (aggregated_options (by decide) (by decide) (by decide) (by simp)).1 defaultOptions []
    ["-ezstd", "fname"] (by decide)

end Lzbench
