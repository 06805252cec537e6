import Mathlib.Data.List.Nodup
import Lzbench.CompDesc
import Lzbench.Lib.CString
import Lzbench.Lib.Loop

/-!
# The encoder list

`lzbench_test_with_params` reads the argument of `-e`: items separated by `/`, each an
alias or a compressor name followed by levels, separated by `,`.  What it does for a
compressor and a level is a parameter, `Actions`, so that a statement about it is about
the calls that are made, in their order.

A list that was written item by item, a name and its levels each, is read back to
exactly the calls that the items stand for.

## Main definitions

* `istrcmp`, `split` — the two string functions.
* `find?_row` — a compressor is found by its name, in any case.
* `lzbenchTestWithParams` — the parser.
* `Item.render`, `Item.calls` — a written item, and the calls it stands for.
* `lzbenchTestWithParams_render` — reading back what was written.
-/

namespace Lzbench

open Imperative

/-! ## Strings -/

/-- `istrcmp`; the terminator is below every other character. -/
def istrcmp : List Char → List Char → ℤ
  | [], [] => 0
  | [], _ :: _ => -1
  | _ :: _, [] => 1
  | a :: s, b :: t =>
    if a.toLower ≠ b.toLower then (if a.toLower > b.toLower then 1 else -1) else istrcmp s t

/-- `split`: separators at the beginning are passed over, every later one ends a
token. -/
def split (text : List Char) (sep : Char) : List (List Char) :=
  (text.dropWhile (· = sep)).splitOn sep

/-- Equality without regard to case. -/
theorem istrcmp_eq_zero_iff (s t : List Char) :
    istrcmp s t = 0 ↔ s.map Char.toLower = t.map Char.toLower := by
  induction s generalizing t with
  | nil => cases t <;> simp [istrcmp]
  | cons a s ih =>
    cases t with
    | nil => simp [istrcmp]
    | cons b t =>
      by_cases heq : a.toLower = b.toLower
      · simp [istrcmp, heq, ih]
      · simp only [istrcmp, ne_eq, heq, not_false_eq_true, if_true, List.map_cons, List.cons.injEq,
          false_and, iff_false]
        split <;> decide

/-- Joining is appending every later token after a separator. -/
theorem intercalate_cons (sep : Char) (token : List Char) (tokens : List (List Char)) :
    [sep].intercalate (token :: tokens) = token ++ tokens.flatMap (sep :: ·) := by
  induction tokens generalizing token with
  | nil => simp
  | cons t tokens ih => rw [List.intercalate_cons_cons, ih]; simp

/-- Tokens joined by a separator that is in none of them are split again, if the first
is not empty. -/
theorem split_intercalate {sep : Char} {token : List Char} {tokens : List (List Char)}
    (hsep : ∀ t ∈ token :: tokens, sep ∉ t) (hne : token ≠ []) :
    split ([sep].intercalate (token :: tokens)) sep = token :: tokens := by
  have hstart : ([sep].intercalate (token :: tokens)).dropWhile (· = sep) =
      [sep].intercalate (token :: tokens) := by
    cases token with
    | nil => exact absurd rfl hne
    | cons c token =>
      have hc : c ≠ sep := fun h => hsep _ List.mem_cons_self (h ▸ List.mem_cons_self)
      rw [intercalate_cons, List.cons_append, List.dropWhile_cons_of_neg (by simpa using hc)]
  rw [split, hstart, List.splitOn_intercalate sep hsep (List.cons_ne_nil _ _)]

/-- Only a separator has the lower case of a separator. -/
theorem not_mem_of_not_mem_lower {c : Char} {s : List Char} (hc : c.toLower = c)
    (h : c ∉ s.map Char.toLower) : c ∉ s := fun hmem =>
  h (hc ▸ List.mem_map_of_mem hmem)

/-- Where no two elements have the same key, what has a key is found by it. -/
theorem find?_of_nodup {α β : Type*} {key : α → β} {xs : List α} (hnodup : (xs.map key).Nodup)
    {x : α} (hx : x ∈ xs) {p : α → Bool} (hp : ∀ y, p y = true ↔ key y = key x) :
    xs.find? p = some x := by
  cases hfind : xs.find? p with
  | none => exact absurd ((hp x).mpr rfl) (List.find?_eq_none.mp hfind x hx)
  | some y =>
    have hkey : key y = key x := (hp y).mp (List.find?_some hfind)
    rw [List.inj_on_of_nodup_map hnodup (List.mem_of_find?_eq_some hfind) hx hkey]

/-- A row is found by its name in any case. -/
theorem find?_row {entry : CompEntry} (hentry : entry ∈ compTable.drop 1) {name : List Char}
    (h : istrcmp entry.name.toList name = 0) :
    (compTable.drop 1).find? (fun e => istrcmp e.name.toList name = 0) = some entry := by
  refine find?_of_nodup (compTable_nodup.sublist ((List.drop_sublist 1 _).map _)) hentry ?_
  intro e
  rw [decide_eq_true_eq, istrcmp_eq_zero_iff, (istrcmp_eq_zero_iff _ _).mp h]

/-- The descriptor with a name is that of a row. -/
theorem find?_compDesc {σ : Type} (wrappers : Wrappers σ) (name : List Char) :
    ((compDesc wrappers).drop 1).find? (fun d => istrcmp d.name.toList name = 0) =
      ((compTable.drop 1).find? fun e => istrcmp e.name.toList name = 0).map
        (CompEntry.desc wrappers) := by
  rw [compDesc, ← List.map_drop, List.find?_map]
  rfl

/-! ## The parser -/

/-- What the parser does: a benchmark run with a level and `param1`, and the line that
a name or its parameter was not found.  `hang` is the end of a run whose aliases are
nested deeper than the fuel given. -/
structure Actions (σ S ε : Type) where
  test : CompressorDesc σ → ℤ → ℕ → S → Except ε S
  notFound : List Char → Option (List Char) → S → S
  hang : S → ε

section Parser

variable {σ S ε : Type} (A : Actions σ S ε) (descs : List (CompressorDesc σ))

/-- The levels from `first_level` to `last_level`. -/
def levelRange (first last : ℤ) : List ℤ :=
  (List.range (last - first + 1).toNat).map fun (i : ℕ) => first + i

/-- The body of the loop over the levels of an item.  Without a level every level of the
compressor is run. -/
def testParam (name : List Char) (param : Option (List Char)) (s : S) : Except ε S :=
  match (descs.drop 1).find? fun d => istrcmp d.name.toList name = 0 with
  | none => .ok (A.notFound name param s)
  | some d =>
    match param with
    | none => (levelRange d.firstLevel d.lastLevel).foldlM
        (fun s level => A.test d level (toSize level) s) s
    | some p => A.test d (atoi p) (toSize (atoi p)) s

/-- One item that is no alias.  The loop over its levels is a `do`-`while`, so without
one it runs once. -/
def testName (cparams : List (List Char)) (s : S) : Except ε S :=
  match cparams with
  | [] => .ok s
  | [name] => testParam A descs name none s
  | name :: params => params.foldlM (fun s param => testParam A descs name (some param) s) s

/-- `lzbench_test_with_params`.  The list of an alias is read in its place. -/
def lzbenchTestWithParams : ℕ → List Char → S → Except ε S
  | 0, _, s => .error (A.hang s)
  | fuel + 1, namesWithParams, s =>
    (split namesWithParams '/').foldlM
      (fun s cname =>
        match aliasDesc.find? fun a => istrcmp cname a.name.toList = 0 with
        | some a => lzbenchTestWithParams fuel a.params.toList s
        | none => testName A descs (split cname ',') s) s

variable {A descs}

/-- The rule of the parser: what the run of every compressor keeps, the whole list keeps. -/
theorem ends_lzbenchTestWithParams {I : S → Prop} {E : ε → Prop}
    (htest : ∀ desc ∈ descs, ∀ level param1 s, I s → Ends I E (A.test desc level param1 s))
    (hnotFound : ∀ name param s, I s → I (A.notFound name param s))
    (hhang : ∀ s, I s → E (A.hang s)) (fuel : ℕ) (names : List Char) {s : S} (hs : I s) :
    Ends I E (lzbenchTestWithParams A descs fuel names s) := by
  have hparam : ∀ name param s, I s → Ends I E (testParam A descs name param s) := by
    intro name param s hs
    simp only [testParam]
    split
    · exact (ends_ok I E _).mpr (hnotFound _ _ _ hs)
    · rename_i d hfind
      have hd : d ∈ descs := List.mem_of_mem_drop (List.mem_of_find?_eq_some hfind)
      cases param with
      | none => exact ends_foldlM (fun _ => I) _ hs fun _ _ _ s _ hs => htest d hd _ _ s hs
      | some p => exact htest d hd _ _ _ hs
  have hname : ∀ cparams s, I s → Ends I E (testName A descs cparams s) := by
    intro cparams s hs
    match cparams with
    | [] => exact (ends_ok I E _).mpr hs
    | [name] => exact hparam _ _ _ hs
    | name :: p :: params =>
      exact ends_foldlM (fun _ => I) _ hs fun _ _ _ s _ hs => hparam _ _ s hs
  induction fuel generalizing names s with
  | zero => exact (ends_error I E _).mpr (hhang s hs)
  | succ fuel ih =>
    apply ends_foldlM (fun _ => I) _ hs
    intro _ cname _ s _ hs
    split
    · exact ih _ hs
    · exact hname _ _ hs

end Parser

/-! ## Written items -/

/-- An item of a list: a compressor other than the baseline, its name in any case, and
levels; without levels the name is not that of an alias. -/
structure Item {σ : Type} (wrappers : Wrappers σ) where
  entry : CompEntry
  name : List Char
  levels : List ℤ
  entry_mem : entry ∈ compTable.drop 1
  name_eq : istrcmp entry.name.toList name = 0
  levels_int : ∀ n ∈ levels, IsInt n
  no_alias : levels = [] → ∀ a ∈ aliasDesc, istrcmp name a.name.toList ≠ 0

namespace Item

variable {σ S ε : Type} {wrappers : Wrappers σ}

/-- The item as it is written. -/
def render (it : Item wrappers) : List Char :=
  it.name ++ it.levels.flatMap fun n => ',' :: decimal n

/-- The runs it stands for. -/
def calls (it : Item wrappers) : List (CompressorDesc σ × ℤ) :=
  match it.levels with
  | [] => (levelRange it.entry.firstLevel it.entry.lastLevel).map (it.entry.desc wrappers, ·)
  | levels => levels.map (it.entry.desc wrappers, ·)

theorem name_lower (it : Item wrappers) :
    it.name.map Char.toLower = it.entry.name.toList.map Char.toLower :=
  ((istrcmp_eq_zero_iff _ _).mp it.name_eq).symm

/-- The name has no separator in it, and is not empty. -/
theorem name_clean (it : Item wrappers) : it.name ≠ [] ∧ '/' ∉ it.name ∧ ',' ∉ it.name := by
  obtain ⟨hne, hslash, hcomma⟩ := compTable_names _ (List.mem_of_mem_drop it.entry_mem)
  rw [← it.name_lower] at hne hslash hcomma
  exact ⟨fun h => hne (by rw [h, List.map_nil]), not_mem_of_not_mem_lower rfl hslash,
    not_mem_of_not_mem_lower rfl hcomma⟩

/-- A printed level has no separator in it. -/
theorem separator_not_mem_decimal {c : Char} (hc : c.isDigit = false) (hminus : c ≠ '-') (n : ℤ) :
    c ∉ decimal n := by
  have hdigits : ∀ k, c ∉ Nat.toDigits 10 k := fun k hk => by
    have hdigit := Nat.isDigit_of_mem_toDigits (by decide) (by decide) hk
    simp [hc] at hdigit
  cases n with
  | ofNat n => exact hdigits n
  | negSucc n => simpa [decimal, hminus] using hdigits (n + 1)

/-- The tokens of the item. -/
theorem split_render (it : Item wrappers) :
    split it.render ',' = it.name :: it.levels.map decimal := by
  have hjoin : it.render = [','].intercalate (it.name :: it.levels.map decimal) := by
    rw [intercalate_cons, List.flatMap_map]
    rfl
  rw [hjoin]
  refine split_intercalate (fun t ht => ?_) it.name_clean.1
  rcases List.mem_cons.mp ht with rfl | ht
  · exact it.name_clean.2.2
  · obtain ⟨n, -, rfl⟩ := List.mem_map.mp ht
    exact separator_not_mem_decimal rfl (by decide) n

/-- The item is one token of the list. -/
theorem slash_not_mem_render (it : Item wrappers) : '/' ∉ it.render := by
  have hlevels : ∀ n ∈ it.levels, '/' ∉ decimal n := fun n _ =>
    separator_not_mem_decimal rfl (by decide) n
  simpa [render, it.name_clean.2.1] using hlevels

theorem render_ne_nil (it : Item wrappers) : it.render ≠ [] := by
  simp [render, it.name_clean.1]

/-- The item is no alias: with levels it has a comma, and no alias has one. -/
theorem find_alias_render (it : Item wrappers) :
    aliasDesc.find? (fun a => istrcmp it.render a.name.toList = 0) = none := by
  rw [List.find?_eq_none]
  intro a ha
  rw [decide_eq_true_eq]
  cases hlevels : it.levels with
  | nil =>
    rw [render, hlevels, List.flatMap_nil, List.append_nil]
    exact it.no_alias hlevels a ha
  | cons n levels =>
    intro heq
    refine aliasDesc_names a ha ?_
    rw [← (istrcmp_eq_zero_iff _ _).mp heq]
    refine List.mem_map.mpr ⟨',', ?_, rfl⟩
    simp [render, hlevels]

/-- The name is that of the item's compressor, and of no other. -/
theorem find_desc (it : Item wrappers) :
    ((compDesc wrappers).drop 1).find? (fun d => istrcmp d.name.toList it.name = 0) =
      some (it.entry.desc wrappers) := by
  rw [find?_compDesc, find?_row it.entry_mem it.name_eq]
  rfl

/-- The runs of the levels written out. -/
theorem testParams_render (A : Actions σ S ε) (it : Item wrappers) {levels : List ℤ}
    (hint : ∀ n ∈ levels, IsInt n) (s : S) :
    (levels.map decimal).foldlM
        (fun s param => testParam A (compDesc wrappers) it.name (some param) s) s =
      (levels.map (it.entry.desc wrappers, ·)).foldlM
        (fun s call => A.test call.1 call.2 (toSize call.2) s) s := by
  induction levels generalizing s with
  | nil => rfl
  | cons n levels ih =>
    have hfirst : testParam A (compDesc wrappers) it.name (some (decimal n)) s =
        A.test (it.entry.desc wrappers) n (toSize n) s := by
      simp only [testParam, find_desc, atoi_decimal (hint n List.mem_cons_self)]
    have hrest := fun s => ih (fun k hk => hint k (List.mem_cons_of_mem n hk)) s
    simp only [List.map_cons, List.foldlM_cons, hfirst, hrest]

/-- The runs of one item. -/
theorem testName_render (A : Actions σ S ε) (it : Item wrappers) (s : S) :
    testName A (compDesc wrappers) (split it.render ',') s =
      it.calls.foldlM (fun s call => A.test call.1 call.2 (toSize call.2) s) s := by
  rw [split_render]
  cases hlevels : it.levels with
  | nil =>
    simp only [List.map_nil, testName, testParam, find_desc, calls, hlevels, List.foldlM_map]
    rfl
  | cons n levels =>
    have hcalls : it.calls = (n :: levels).map (it.entry.desc wrappers, ·) := by
      rw [calls, hlevels]
    rw [hcalls, ← it.testParams_render A (hlevels ▸ it.levels_int)]
    rfl

end Item

/-- A list of items is read back to the runs that the items stand for, in their order,
and nothing else is done. -/
theorem lzbenchTestWithParams_render {σ S ε : Type} {wrappers : Wrappers σ} (A : Actions σ S ε)
    (fuel : ℕ) (item : Item wrappers) (items : List (Item wrappers)) (s : S) :
    lzbenchTestWithParams A (compDesc wrappers) (fuel + 1)
        (['/'].intercalate ((item :: items).map Item.render)) s =
      ((item :: items).flatMap Item.calls).foldlM
        (fun s call => A.test call.1 call.2 (toSize call.2) s) s := by
  have hsplit : split (['/'].intercalate ((item :: items).map Item.render)) '/' =
      (item :: items).map Item.render := by
    refine split_intercalate (fun t ht => ?_) item.render_ne_nil
    rw [← List.map_cons] at ht
    obtain ⟨it, -, rfl⟩ := List.mem_map.mp ht
    exact it.slash_not_mem_render
  rw [lzbenchTestWithParams, hsplit, List.foldlM_map]
  simp only [Item.find_alias_render, Item.testName_render]
  generalize item :: items = all
  induction all generalizing s with
  | nil => rfl
  | cons it all ih => simp only [List.foldlM_cons, List.flatMap_cons, List.foldlM_append, ih]

def noWrappers : Wrappers Unit := ⟨fun _ => none, fun _ => none, fun _ => none⟩

/-- `QuickLZ`, at every level. -/
def quicklzItem : Item noWrappers where
  entry := ⟨"quicklz", "1.5.0", 1, 3, 0, 0,
    "lzbench_quicklz_compress", "lzbench_quicklz_decompress", none, none⟩
  name := "QuickLZ".toList
  levels := []
  entry_mem := by decide +kernel
  name_eq := by decide
  levels_int := by simp
  no_alias := fun _ => by decide +kernel

/-- `zLing,0,4`. -/
def zlingItem : Item noWrappers where
  entry := ⟨"zling", "2018-10-12", 0, 4, 0, 0,
    "lzbench_zling_compress", "lzbench_zling_decompress", none, none⟩
  name := "zLing".toList
  levels := [0, 4]
  entry_mem := by decide +kernel
  name_eq := by decide
  levels_int := by simp [IsInt]
  no_alias := fun h => by cases h

/-- The names and the levels of the runs are recorded. -/
def recordRuns : Actions Unit (List (String × ℤ)) Unit where
  test desc level _ s := .ok (s ++ [(desc.name, level)])
  notFound _ _ s := s
  hang _ := ()

theorem lzbenchTestWithParams_render_two :
    lzbenchTestWithParams recordRuns (compDesc noWrappers) 1 "QuickLZ/zLing,0,4".toList [] =
      .ok [("quicklz", 1), ("quicklz", 2), ("quicklz", 3), ("zling", 0), ("zling", 4)] :=
  lzbenchTestWithParams_render recordRuns 0 quicklzItem [zlingItem] []

end Lzbench
