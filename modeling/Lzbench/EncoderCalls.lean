import Lzbench.EncoderList
import Lzbench.OptionText

/-!
# What an encoder list stands for

For every string the expansion of the aliases ends, and the calls that it leads to are those of
its tokens, one after the other.  So lists can be put together at their separators, and an alias
stands for its list.

The tokens are taken by `find` and `substr`, which look at a text by positions.

## Main definitions

* `splitAt` — `split`, by positions.
* `ListEvent`, `listEvents` — what the parser does, one thing after the other.
* `lzbenchTestWithParams_eq` — the parser does the events of a list.
* `testCalls`, `callsOf` — the calls of `lzbench_test`, recorded.
* `encoderList_composes` — the calls of a list that is put together.
-/

namespace Lzbench

open Imperative

/-! ## Tokens by position -/

/-- `text.find(sep, start)`. -/
def findFrom (text : List Char) (sep : Char) (start : ℕ) : Option ℕ :=
  ((text.drop start).findIdx? (· = sep)).map (start + ·)

/-- `text.substr(start, len)`, without a length for all that is left.  A start beyond the end is
out of range. -/
def substr (text : List Char) (start : ℕ) (len : Option ℕ) : Except Stop (List Char) :=
  if start ≤ text.length then .ok ((text.drop start).take (len.getD text.length))
  else .error .undefined

/-- `while (text[start] == sep) start++`. -/
def skipAt (text : List Char) (sep : Char) : ℕ → ℕ → Except Stop ℕ
  | 0, _ => .error .hang
  | fuel + 1, start => do
      let c ← charAt text start
      if c = sep then skipAt text sep fuel (start + 1) else .ok start

/-- The loop over the tokens, and the last one. -/
def tokensAt (text : List Char) (sep : Char) : ℕ → ℕ → Except Stop (List (List Char))
  | 0, _ => .error .hang
  | fuel + 1, start =>
    match findFrom text sep start with
    | some stop => do
        let token ← substr text start (some (stop - start))
        let tokens ← tokensAt text sep fuel (stop + 1)
        .ok (token :: tokens)
    | none => do
        let token ← substr text start none
        .ok [token]

/-- `split`. -/
def splitAt (text : List Char) (sep : Char) : Except Stop (List (List Char)) := do
  let start ← skipAt text sep (text.length + 1) 0
  tokensAt text sep (text.length + 1) start

section Tokens

variable {text rest : List Char} {sep : Char} {i fuel : ℕ}

/-- Behind a part of what the index points at. -/
theorem Points.skip {part : List Char} (h : Points text i (part ++ rest)) :
    Points text (i + part.length) rest := by
  have hlen := h.length_eq
  rw [List.length_append] at hlen
  refine ⟨?_, by omega⟩
  rw [← List.drop_drop, h.drop_eq, List.drop_left]

theorem Points.skipAt (h : Points text i rest) (hsep : sep ≠ nul) (hfuel : rest.length < fuel) :
    ∃ j, Lzbench.skipAt text sep fuel i = .ok j ∧
      Points text j (rest.dropWhile (· = sep)) := by
  induction rest generalizing fuel i with
  | nil =>
    obtain ⟨fuel, rfl⟩ := Nat.exists_eq_succ_of_ne_zero (by omega : fuel ≠ 0)
    refine ⟨i, ?_, h⟩
    simp [Lzbench.skipAt, h.charAt_nil, bind, Except.bind, hsep.symm]
  | cons c rest ih =>
    rw [List.length_cons] at hfuel
    obtain ⟨fuel, rfl⟩ := Nat.exists_eq_succ_of_ne_zero (by omega : fuel ≠ 0)
    by_cases hc : c = sep
    · have hrest : rest.length < fuel := by omega
      obtain ⟨j, hj, hpoints⟩ := ih h.next hrest
      refine ⟨j, ?_, ?_⟩
      · simpa [Lzbench.skipAt, h.charAt_cons, bind, Except.bind, hc] using hj
      · rw [List.dropWhile_cons_of_pos (by simpa using hc)]
        exact hpoints
    · refine ⟨i, ?_, ?_⟩
      · simp [Lzbench.skipAt, h.charAt_cons, bind, Except.bind, hc]
      · rw [List.dropWhile_cons_of_neg (by simpa using hc)]
        exact h

/-- No substring is out of range, and the tokens are those of the list. -/
theorem Points.tokensAt (h : Points text i rest) (hfuel : rest.length < fuel) :
    Lzbench.tokensAt text sep fuel i = .ok (rest.splitOn sep) := by
  induction fuel generalizing rest i with
  | zero => omega
  | succ fuel ih =>
    have hlen := h.length_eq
    by_cases hmem : sep ∈ rest
    · obtain ⟨token, tail, rfl, htoken⟩ := List.eq_append_cons_of_mem hmem
      have hfind : (token ++ sep :: tail).findIdx? (· = sep) = some token.length := by
        have hnone : ∀ c ∈ token, decide (c = sep) = false := by
          intro c hc
          exact decide_eq_false fun heq => htoken (heq ▸ hc)
        simp [List.findIdx?_append, List.findIdx?_eq_none_iff.mpr hnone, List.findIdx?_cons]
      have hnext : Points text (i + token.length + 1) tail := h.skip.next
      rw [List.length_append, List.length_cons] at hfuel
      simp [Lzbench.tokensAt, findFrom, h.drop_eq, hfind, substr, h.le, bind, Except.bind,
        ih hnext (by omega : tail.length < fuel),
        List.splitOn_append_cons_self_of_not_mem htoken]
    · have hfind : rest.findIdx? (· = sep) = none := by
        rw [List.findIdx?_eq_none_iff]
        intro c hc
        exact decide_eq_false fun heq => hmem (heq ▸ hc)
      have htake : rest.take text.length = rest := List.take_of_length_le (by omega)
      simp [Lzbench.tokensAt, findFrom, h.drop_eq, hfind, substr, h.le, bind, Except.bind, htake,
        List.splitOn_eq_singleton hmem]

/-- `split` is never out of range. -/
theorem splitAt_eq (text : List Char) (hsep : sep ≠ nul) :
    splitAt text sep = .ok (split text sep) := by
  obtain ⟨j, hj, hpoints⟩ := (Points.start text).skipAt hsep (Nat.lt_succ_self text.length)
  have hlen := text.dropWhile_suffix (· = sep) |>.length_le
  rw [splitAt, Nat.add_one, hj]
  exact hpoints.tokensAt (Nat.lt_succ_of_le hlen)

theorem not_mem_of_mem_splitOn {token : List Char} (h : token ∈ text.splitOn sep) :
    sep ∉ token := by
  induction hn : text.length using Nat.strongRecOn generalizing text with
  | ind n ih =>
    by_cases hmem : sep ∈ text
    · obtain ⟨first, tail, rfl, hfirst⟩ := List.eq_append_cons_of_mem hmem
      rw [List.splitOn_append_cons_self_of_not_mem hfirst, List.mem_cons] at h
      rw [List.length_append, List.length_cons] at hn
      cases h with
      | inl heq => exact heq ▸ hfirst
      | inr htail => exact ih _ (by omega) htail rfl
    · rw [List.splitOn_eq_singleton hmem, List.mem_singleton] at h
      exact h ▸ hmem

/-- A token has no separator, so it is its only token. -/
theorem split_token {token : List Char} (h : sep ∉ token) : split token sep = [token] := by
  have hdrop : token.dropWhile (· = sep) = token := by
    cases token with
    | nil => rfl
    | cons c token =>
      have hc : c ≠ sep := fun heq => h (heq ▸ List.mem_cons_self ..)
      exact List.dropWhile_cons_of_neg (by simpa using hc)
  rw [split, hdrop, List.splitOn_eq_singleton h]

end Tokens

/-! ## Events -/

/-- What the parser does at a time, for the rows of the table. -/
inductive ListEvent
  | test (entry : CompEntry) (level : ℤ) (param1 : ℕ)
  | notFound (name : List Char) (param : Option (List Char))
  | hang

/-- The events of one level, or of all levels. -/
def paramEvents (name : List Char) (param : Option (List Char)) : List ListEvent :=
  match (compTable.drop 1).find? fun e => istrcmp e.name.toList name = 0 with
  | none => [.notFound name param]
  | some e =>
    match param with
    | none => (levelRange e.firstLevel e.lastLevel).map fun level => .test e level (toSize level)
    | some p => [.test e (atoi p) (toSize (atoi p))]

/-- The events of an item that is no alias. -/
def nameEvents (cparams : List (List Char)) : List ListEvent :=
  match cparams with
  | [] => []
  | [name] => paramEvents name none
  | name :: params => params.flatMap fun param => paramEvents name (some param)

/-- The alias that a token names. -/
def aliasOf (cname : List Char) : Option AliasDesc :=
  aliasDesc.find? fun a => istrcmp cname a.name.toList = 0

/-- The events of a list, with aliases of some depth. -/
def listEvents : ℕ → List Char → List ListEvent
  | 0, _ => [.hang]
  | fuel + 1, names =>
    (split names '/').flatMap fun cname =>
      match aliasOf cname with
      | some a => listEvents fuel a.params.toList
      | none => nameEvents (split cname ',')

section Events

variable {σ S ε : Type} (A : Actions σ S ε) (wrappers : Wrappers σ)

/-- Doing it. -/
def ListEvent.perform (s : S) : ListEvent → Except ε S
  | test entry level param1 => A.test (entry.desc wrappers) level param1 s
  | notFound name param => .ok (A.notFound name param s)
  | hang => .error (A.hang s)

theorem testParam_eq (name : List Char) (param : Option (List Char)) (s : S) :
    testParam A (compDesc wrappers) name param s =
      (paramEvents name param).foldlM (ListEvent.perform A wrappers) s := by
  simp only [testParam, paramEvents, find?_compDesc]
  cases (compTable.drop 1).find? fun e => istrcmp e.name.toList name = 0 with
  | none => rfl
  | some e =>
    cases param with
    | none =>
      simp only [Option.map_some, List.foldlM_map]
      rfl
    | some p =>
      simp only [Option.map_some, List.foldlM_cons, ListEvent.perform]
      cases A.test (e.desc wrappers) (atoi p) (toSize (atoi p)) s <;> rfl

theorem testName_eq (cparams : List (List Char)) (s : S) :
    testName A (compDesc wrappers) cparams s =
      (nameEvents cparams).foldlM (ListEvent.perform A wrappers) s := by
  match cparams with
  | [] => rfl
  | [name] => exact testParam_eq A wrappers name none s
  | name :: p :: params =>
    simp only [testName, nameEvents, foldlM_flatMap, testParam_eq]

/-- The parser does the events of its list. -/
theorem lzbenchTestWithParams_eq (fuel : ℕ) (names : List Char) (s : S) :
    lzbenchTestWithParams A (compDesc wrappers) fuel names s =
      (listEvents fuel names).foldlM (ListEvent.perform A wrappers) s := by
  induction fuel generalizing names s with
  | zero => rfl
  | succ fuel ih =>
    rw [lzbenchTestWithParams, listEvents, foldlM_flatMap]
    congr 1
    funext s cname
    change (match aliasOf cname with
      | some a => lzbenchTestWithParams A (compDesc wrappers) fuel a.params.toList s
      | none => testName A (compDesc wrappers) (split cname ',') s) = _
    cases aliasOf cname with
    | some a => exact ih _ s
    | none => exact testName_eq A wrappers _ s

end Events

/-! ## Aliases -/

/-- No alias of a list of an alias stands for another alias. -/
theorem aliasOf_depth : ∀ a ∈ aliasDesc, ∀ cname ∈ split a.params.toList '/',
    ∀ b ∈ aliasOf cname, ∀ cname' ∈ split b.params.toList '/', aliasOf cname' = none := by
  -- the characters of a long literal are not computed, but rewritten
  simp only [aliasDesc, List.forall_mem_cons, String.toList_append, List.not_mem_nil,
    false_implies, implies_true, -String.reduceToList, -String.reduceAppend]
  repeat rw [String.toList_ofList]
  decide +kernel

/-- The aliases' own names. -/
theorem aliasDesc_nodup : (aliasDesc.map fun a => a.name.toList.map Char.toLower).Nodup := by
  decide +kernel

theorem aliasDesc_slash : ∀ a ∈ aliasDesc, '/' ∉ a.name.toList.map Char.toLower := by
  decide +kernel

theorem aliasOf_mem {cname : List Char} {a : AliasDesc} (h : aliasOf cname = some a) :
    a ∈ aliasDesc := List.mem_of_find?_eq_some h

/-- A token that equals an alias up to case names it, and no other. -/
theorem aliasOf_eq {cname : List Char} {a : AliasDesc} (ha : a ∈ aliasDesc)
    (h : istrcmp cname a.name.toList = 0) : aliasOf cname = some a := by
  refine find?_of_nodup aliasDesc_nodup ha ?_
  intro b
  rw [decide_eq_true_eq, istrcmp_eq_zero_iff, (istrcmp_eq_zero_iff _ _).mp h]
  exact eq_comm

/-- The events of a list do not change with more than `k` levels of aliases, and none is left
out. -/
def Settled (k : ℕ) (names : List Char) : Prop :=
  (∀ fuel, listEvents (fuel + k) names = listEvents k names) ∧ .hang ∉ listEvents k names

theorem hang_not_mem_nameEvents (cparams : List (List Char)) :
    .hang ∉ nameEvents cparams := by
  have hparam : ∀ name param, .hang ∉ paramEvents name param := by
    intro name param
    simp only [paramEvents]
    split
    · simp
    · cases param <;> simp
  match cparams with
  | [] => simp [nameEvents]
  | [name] => exact hparam name none
  | name :: p :: params =>
    simp only [nameEvents, List.mem_flatMap, not_exists, not_and]
    exact fun param _ => hparam name (some param)

/-- A list is settled one level above its aliases. -/
theorem settled_succ {k : ℕ} {names : List Char}
    (h : ∀ cname ∈ split names '/', ∀ a ∈ aliasOf cname, Settled k a.params.toList) :
    Settled (k + 1) names := by
  constructor
  · intro fuel
    rw [← Nat.add_assoc, listEvents, listEvents]
    refine List.flatMap_congr ?_
    intro cname hmem
    split
    · rename_i a ha
      exact (h cname hmem a ha).1 fuel
    · rfl
  · rw [listEvents, List.mem_flatMap]
    rintro ⟨cname, hmem, hhang⟩
    split at hhang
    · rename_i a ha
      exact (h cname hmem a ha).2 hhang
    · exact hang_not_mem_nameEvents _ hhang

/-- Two levels are enough for the list of an alias, three for every list. -/
theorem settled_alias {a : AliasDesc} (ha : a ∈ aliasDesc) : Settled 2 a.params.toList := by
  refine settled_succ ?_
  intro cname hmem b hb
  refine settled_succ ?_
  intro cname' hmem' c hc
  rw [aliasOf_depth a ha cname hmem b hb cname' hmem'] at hc
  cases hc

theorem settled_three (names : List Char) : Settled 3 names := by
  refine settled_succ ?_
  intro cname _ a ha
  exact settled_alias (aliasOf_mem ha)

/-! ## Calls -/

/-- A call of `lzbench_test`: the compressor, the level, and the level as a parameter. -/
abbrev LevelCall (σ : Type) := CompressorDesc σ × ℤ × ℕ

section Calls

variable {σ : Type}

/-- The calls are recorded, and nothing is run. -/
def callRecorder : Actions σ (List (LevelCall σ)) Unit where
  test desc level param1 calls := .ok (calls ++ [(desc, level, param1)])
  notFound _ _ calls := calls
  hang _ := ()

/-- The calls that the parser makes for a list. -/
def testCalls (descs : List (CompressorDesc σ)) (fuel : ℕ) (names : List Char) :
    Except Unit (List (LevelCall σ)) :=
  lzbenchTestWithParams callRecorder descs fuel names []

/-- The calls for the table of compressors, with three levels of aliases. -/
def callsOf (wrappers : Wrappers σ) (names : List Char) : List (LevelCall σ) :=
  (testCalls (compDesc wrappers) 3 names).toOption.getD []

/-- The call of an event. -/
def ListEvent.call (wrappers : Wrappers σ) : ListEvent → Option (LevelCall σ)
  | test entry level param1 => some (entry.desc wrappers, level, param1)
  | _ => none

variable (wrappers : Wrappers σ)

theorem foldlM_callRecorder {events : List ListEvent} (h : .hang ∉ events)
    (calls : List (LevelCall σ)) :
    events.foldlM (ListEvent.perform callRecorder wrappers) calls =
      .ok (calls ++ events.filterMap (ListEvent.call wrappers)) := by
  induction events generalizing calls with
  | nil => simp [pure, Except.pure]
  | cons e events ih =>
    rw [List.mem_cons, not_or] at h
    cases e with
    | test entry level param1 =>
      have hcall : (ListEvent.test entry level param1).perform callRecorder wrappers calls =
          .ok (calls ++ [(entry.desc wrappers, level, param1)]) := rfl
      rw [foldlM_cons_of_ok events hcall, ih h.2, List.append_assoc]
      rfl
    | notFound name param =>
      have hcall : (ListEvent.notFound name param).perform callRecorder wrappers calls =
          .ok calls := rfl
      rw [foldlM_cons_of_ok events hcall, ih h.2]
      rfl
    | hang => exact (h.1 rfl).elim

/-- The calls are those of the events. -/
theorem testCalls_eq (fuel : ℕ) (names : List Char) :
    testCalls (compDesc wrappers) (fuel + 3) names =
      .ok ((listEvents 3 names).filterMap (ListEvent.call wrappers)) := by
  obtain ⟨hsame, hhang⟩ : Settled 3 names := settled_three names
  rw [testCalls, lzbenchTestWithParams_eq, hsame fuel]
  exact foldlM_callRecorder wrappers hhang []

theorem callsOf_eq (names : List Char) :
    callsOf wrappers names =
      (listEvents 3 names).filterMap (ListEvent.call wrappers) := by
  rw [callsOf, testCalls_eq wrappers 0]
  rfl

/-- The calls of a list are those of its tokens. -/
theorem callsOf_split (names : List Char) :
    callsOf wrappers names = (split names '/').flatMap (callsOf wrappers) := by
  have htoken : ∀ cname ∈ split names '/', callsOf wrappers cname =
      (match aliasOf cname with
        | some a => listEvents 2 a.params.toList
        | none => nameEvents (split cname ',')).filterMap (ListEvent.call wrappers) := by
    intro cname hmem
    have hone : split cname '/' = [cname] := split_token (not_mem_of_mem_splitOn hmem)
    rw [callsOf_eq, listEvents, hone, List.flatMap_singleton]
  rw [callsOf_eq, listEvents, List.filterMap_flatMap]
  exact List.flatMap_congr fun cname hmem => (htoken cname hmem).symm

/-- An empty token is the name of no compressor. -/
theorem callsOf_nil : callsOf wrappers [] = [] := by
  have hsplit : ∀ sep, split [] sep = [[]] := fun _ => rfl
  have halias : aliasOf [] = none := by decide +kernel
  have hfind : (compTable.drop 1).find? (fun e => istrcmp e.name.toList [] = 0) = none := by
    rw [List.find?_eq_none]
    intro e he
    have hne := (compTable_names e (List.mem_of_mem_drop he)).1
    simpa [istrcmp_eq_zero_iff] using hne
  rw [callsOf_eq, listEvents, hsplit, List.flatMap_singleton, halias]
  simp only [hsplit, nameEvents, paramEvents, hfind]
  rfl

/-- Separators in front of a list add no calls. -/
theorem callsOf_splitOn (names : List Char) :
    (names.splitOn '/').flatMap (callsOf wrappers) = callsOf wrappers names := by
  induction names with
  | nil => simp [callsOf_nil]
  | cons c names ih =>
    by_cases hc : c = '/'
    · subst hc
      have hsplit : ('/' :: names).splitOn '/' = [] :: names.splitOn '/' :=
        List.splitOn_append_cons_self_of_not_mem (List.not_mem_nil) names
      have hdrop : split ('/' :: names) '/' = split names '/' := rfl
      rw [hsplit, List.flatMap_cons, callsOf_nil, List.nil_append, ih,
        callsOf_split wrappers ('/' :: names), hdrop, ← callsOf_split]
    · have hdrop : split (c :: names) '/' = (c :: names).splitOn '/' := by
        rw [split, List.dropWhile_cons_of_neg (by simpa using hc)]
      rw [← hdrop, ← callsOf_split]

theorem callsOf_append (a b : List Char) :
    callsOf wrappers (a ++ '/' :: b) = callsOf wrappers a ++ callsOf wrappers b := by
  rw [← callsOf_splitOn, List.splitOn_append_cons_self, List.flatMap_append, callsOf_splitOn,
    callsOf_splitOn]

/-- An alias stands for its list. -/
theorem callsOf_alias {a : AliasDesc} (ha : a ∈ aliasDesc) {cname : List Char}
    (h : istrcmp cname a.name.toList = 0) :
    callsOf wrappers cname = callsOf wrappers a.params.toList := by
  have hslash : '/' ∉ cname := by
    refine not_mem_of_not_mem_lower rfl ?_
    rw [(istrcmp_eq_zero_iff _ _).mp h]
    exact aliasDesc_slash a ha
  have hthree : listEvents 3 a.params.toList =
      listEvents 2 a.params.toList := (settled_alias ha).1 1
  rw [callsOf_eq, callsOf_eq, hthree, listEvents, split_token hslash, List.flatMap_singleton,
    aliasOf_eq ha h]

end Calls

/-- The expansion of every list ends.  A list in two parts has the calls of both, every list has
those of its tokens, and an alias in any case has those of its list.  The tokens are never out
of range, have no separator, and are all of the text but the separators in front. -/
theorem encoderList_composes {σ : Type} (wrappers : Wrappers σ) :
    (∀ fuel names,
      testCalls (compDesc wrappers) (fuel + 3) names = .ok (callsOf wrappers names)) ∧
    (∀ a b, callsOf wrappers (a ++ '/' :: b) = callsOf wrappers a ++ callsOf wrappers b) ∧
    (∀ names, callsOf wrappers names = (split names '/').flatMap (callsOf wrappers)) ∧
    (∀ a ∈ aliasDesc, ∀ cname, istrcmp cname a.name.toList = 0 →
      callsOf wrappers cname = callsOf wrappers a.params.toList) ∧
    ∀ text sep, sep ≠ nul → splitAt text sep = .ok (split text sep) ∧
      (∀ token ∈ split text sep, sep ∉ token) ∧
      [sep].intercalate (split text sep) = text.dropWhile (· = sep) := by
  refine ⟨?_, callsOf_append wrappers, callsOf_split wrappers, ?_, ?_⟩
  · intro fuel names
    rw [testCalls_eq, callsOf_eq]
  · intro a ha cname h
    exact callsOf_alias wrappers ha h
  · intro text sep hsep
    exact ⟨splitAt_eq text hsep, fun token hmem => not_mem_of_mem_splitOn hmem,
      List.intercalate_splitOn sep⟩

end Lzbench
