import Lzbench.EncoderCalls
import Lzbench.Lzlib
import Lzbench.Tornado
import Lzbench.World

/-!
# Levels that index tables

The wrapper of lzlib uses its level as an index, and the one of tornado the last byte of it.  A
level that is written in the encoder list comes there unchecked, however large it is.

Where a wrapper is called with an index outside of its table anything may happen.  So that no
such call is made shows in two ways: none is among the calls that are logged, and a run stays
the same when the wrappers do something else in such calls.

## Main definitions

* `LevelInRange` — the index of a call is in its table.
* `LevelsInRange` — no call of an encoder list has another one.
* `LevelsGood` — the levels that are written in a list are in range.
* `levelsInRange_iff` — when no call is out of range.
-/

namespace Lzbench

open Imperative

/-! ## Calls in range -/

/-- The index that the wrapper with this name makes of its level is in its table. -/
def LevelInRange (function : String) (param1 : ℕ) : Prop :=
  (function = "lzbench_lzlib_compress" → (optionMapping[param1]?).isSome) ∧
  (function = "lzbench_tornado_compress" → (torMethod (param1 % 2 ^ 8)).isSome)

instance (function : String) (param1 : ℕ) : Decidable (LevelInRange function param1) :=
  inferInstanceAs (Decidable ((_ → _) ∧ (_ → _)))

/-- Out of range the wrapper of lzlib is undefined, and that of tornado. -/
theorem lzlib_undefined {ε : Type} (lib : Lzlib ε) {a : CodecArgs} (fuel : ℕ)
    (h : ¬ LevelInRange "lzbench_lzlib_compress" a.param1) :
    lzbenchLzlibCompress lib a fuel = .error .undefined := by
  have hnone : optionMapping[a.param1]? = none := by
    simpa [LevelInRange] using h
  rw [lzbenchLzlibCompress, hnone]

theorem tornado_undefined (coder : PackMethod → List UInt8 → List TorWrite) {a : CodecArgs}
    (h : ¬ LevelInRange "lzbench_tornado_compress" a.param1) :
    lzbenchTornadoCompress coder a = .error .undefined := by
  have hnone : torMethod (a.param1 % 2 ^ 8) = none := by
    simpa [LevelInRange] using h
  rw [lzbenchTornadoCompress, torCompress, hnone]

/-- Functions that agree on the calls in range. -/
structure AgreeInRange {σ : Type} (wrappers wrappers' : Wrappers σ) : Prop where
  init : wrappers.init = wrappers'.init
  deinit : wrappers.deinit = wrappers'.deinit
  code : ∀ function, Option.Rel
    (fun c c' => ∀ a w, LevelInRange function a.param1 → c a w = c' a w)
    (wrappers.code function) (wrappers'.code function)

/-- A part of the world that has every call of a codec function in it, with its level. -/
structure Logs {σ : Type} (host : Host σ) (wrappers : Wrappers σ)
    (log : σ → List (String × ℕ)) : Prop where
  getTime : ∀ w, log (host.env.getTime w).2 = log w
  uniSleep : ∀ w, log (host.env.uniSleep w) = log w
  init : ∀ function f, wrappers.init function = some f → ∀ n p q w, log (f n p q w).2 = log w
  deinit : ∀ function f, wrappers.deinit function = some f → ∀ m w, log (f m w) = log w
  code : ∀ function c, wrappers.code function = some c → ∀ a w,
    log (c a w).world = log w ++ [(function, a.param1)]

/-- No call of an encoder list is out of range. -/
structure LevelsInRange (names : String) : Prop where
  logged : ∀ {σ : Type} {host : Host σ} {wrappers : Wrappers σ} {log : σ → List (String × ℕ)},
    Logs host wrappers log → ∀ (fuel : ℕ) (input : Input) (comprsize : ℕ) (s : Bench σ),
    log s.world = [] →
    Ends (fun s' : Bench σ => ∀ call ∈ log s'.world, LevelInRange call.1 call.2) (fun _ => True)
      (benchEncoders host fuel wrappers (some names) input comprsize s)
  independent : ∀ {σ : Type} {wrappers wrappers' : Wrappers σ}, AgreeInRange wrappers wrappers' →
    ∀ (host : Host σ) (fuel : ℕ) (input : Input) (comprsize : ℕ) (s : Bench σ),
    benchEncoders host fuel wrappers (some names) input comprsize s =
      benchEncoders host fuel wrappers' (some names) input comprsize s

/-! ## Runs that agree -/

section Agree

variable {σ : Type} {c c' : CompressFunc σ} {param1 : ℕ}

/-- The codec gets the level of the run, and its other calls do not matter. -/
theorem lzbenchCompress_congr (h : ∀ a w, a.param1 = param1 → c a w = c' a w) (inbuf : Mem)
    (param2 workmem : ℕ) : lzbenchCompress c inbuf param1 param2 workmem =
      lzbenchCompress c' inbuf param1 param2 workmem := by
  have hstep : compressStep c inbuf param1 param2 workmem =
      compressStep c' inbuf param1 param2 workmem := by
    funext s part
    simp only [compressStep, h (compressArgs inbuf param1 param2 workmem s part) s.world rfl]
  funext chunkSizes comprSizes outbuf outsize w
  simp only [lzbenchCompress, hstep]

theorem tryCspeed_congr (h : ∀ a w, a.param1 = param1 → c a w = c' a w) (env : Env σ)
    (params : LzbenchParams) (chunkSize : ℕ) (inbuf : Mem) (param2 workmem : ℕ) (compbuf : Mem)
    (w : σ) : tryCspeed env params c chunkSize inbuf param1 param2 workmem compbuf w =
      tryCspeed env params c' chunkSize inbuf param1 param2 workmem compbuf w := by
  have hcall := h ⟨inbuf, 0, min (100 * 1024) chunkSize, compbuf, 0,
    getCompressBound (min (100 * 1024) chunkSize), param1, param2, workmem⟩ (env.getTime w).2 rfl
  simp only [tryCspeed, hcall]

theorem measure_congr (h : ∀ a w, a.param1 = param1 → c a w = c' a w) {env : Env σ}
    {params : LzbenchParams} {desc desc' : CompressorDesc σ}
    (hrow : statRow params desc = statRow params desc')
    (hdeinit : deinitWorkmem desc = deinitWorkmem desc') (level : ℤ) (decompress : CompressFunc σ)
    (inbuf : Mem) (insize : ℕ) (comprsize : UInt64) (param2 workmem : ℕ) (chunkSizes : List ℕ)
    (fuel : ℕ) (compbuf decomp : Mem) (w : σ) :
    measure env params desc level c decompress inbuf insize comprsize param1 param2 workmem
        chunkSizes fuel compbuf decomp w =
      measure env params desc' level c' decompress inbuf insize comprsize param1 param2 workmem
        chunkSizes fuel compbuf decomp w := by
  have hiter : compressIter env inbuf param1 param2 workmem chunkSizes c comprsize =
      compressIter env inbuf param1 param2 workmem chunkSizes c' comprsize := by
    funext s
    rw [compressIter, compressIter, lzbenchCompress_congr h]
  simp only [measure, compressPhase, hiter, hrow, hdeinit]

/-- Two compressors that differ in calls with another level. -/
structure SameAt (param1 : ℕ) (desc desc' : CompressorDesc σ) : Prop where
  row : ∀ params, statRow params desc = statRow params desc'
  additionalParam : desc.additionalParam = desc'.additionalParam
  maxBlockSize : desc.maxBlockSize = desc'.maxBlockSize
  init : desc.init = desc'.init
  deinit : desc.deinit = desc'.deinit
  decompress : desc.decompress = desc'.decompress
  compress : Option.Rel (fun c c' => ∀ a w, a.param1 = param1 → c a w = c' a w)
    desc.compress desc'.compress

theorem lzbenchTest_congr {desc desc' : CompressorDesc σ} (h : SameAt param1 desc desc')
    (env : Env σ) (params : LzbenchParams) (fileSizes : List ℕ) (level : ℤ) (inbuf : Mem)
    (insize : ℕ) (comprsize : UInt64) (fuel : ℕ) (compbuf decomp : Mem) (w : σ) :
    lzbenchTest env params fileSizes desc level inbuf insize comprsize param1 fuel compbuf decomp
        w =
      lzbenchTest env params fileSizes desc' level inbuf insize comprsize param1 fuel compbuf decomp
        w := by
  have hinit : initWorkmem desc = initWorkmem desc' := by
    funext n p q w
    simp only [initWorkmem, h.init]
  have hdeinit : deinitWorkmem desc = deinitWorkmem desc' := by
    funext m w
    simp only [deinitWorkmem, h.deinit]
  have hcompress := h.compress
  cases hc : desc.compress with
  | none =>
    rw [hc] at hcompress
    cases hc' : desc'.compress with
    | none => simp only [lzbenchTest, hc, hc', hdeinit]
    | some c' =>
      rw [hc'] at hcompress
      cases hcompress
  | some c =>
    rw [hc] at hcompress
    cases hc' : desc'.compress with
    | none =>
      rw [hc'] at hcompress
      cases hcompress
    | some c' =>
      rw [hc'] at hcompress
      cases hcompress with
      | some hcall =>
        cases hd : desc'.decompress with
        | none => simp only [lzbenchTest, hc, hc', h.decompress, hd, hdeinit]
        | some decompress =>
          simp only [lzbenchTest, hc, hc', h.decompress, hd, h.additionalParam, h.maxBlockSize,
            hinit, hdeinit, tryCspeed_congr hcall, measure_congr hcall (h.row params) hdeinit]

end Agree

/-! ## Levels of a list -/

/-- A level that may stand behind a name. -/
def LevelGood (name p : List Char) : Prop :=
  (istrcmp "lzlib".toList name = 0 → 0 ≤ atoi p ∧ atoi p ≤ 9) ∧
  (istrcmp "tornado".toList name = 0 →
    atoi p % 256 ≤ 16 ∨ 20 ≤ atoi p % 256 ∧ atoi p % 256 ≤ 27)

instance (name p : List Char) : Decidable (LevelGood name p) :=
  inferInstanceAs (Decidable ((_ → _) ∧ (_ → _)))

/-- All levels of an item. -/
def CparamsGood : List (List Char) → Prop
  | [] => True
  | name :: params => ∀ p ∈ params, LevelGood name p

instance : DecidablePred CparamsGood
  | [] => isTrue trivial
  | name :: params => inferInstanceAs (Decidable (∀ p ∈ params, LevelGood name p))

/-- All levels of a list. -/
def LevelsGood (names : List Char) : Prop :=
  ∀ cname ∈ split names '/', CparamsGood (split cname ',')

instance (names : List Char) : Decidable (LevelsGood names) :=
  inferInstanceAs (Decidable (∀ cname ∈ split names '/', CparamsGood (split cname ',')))

/-- The levels of the aliases. -/
theorem aliasDesc_levels : ∀ a ∈ aliasDesc, LevelsGood a.params.toList := by
  simp only [aliasDesc, List.forall_mem_cons, String.toList_append, List.not_mem_nil,
    false_implies, implies_true, -String.reduceToList, -String.reduceAppend]
  repeat rw [String.toList_ofList]
  decide +kernel

theorem optionMapping_isSome (n : ℕ) : (optionMapping[n]?).isSome ↔ n ≤ 9 := by
  rw [isSome_getElem?]
  exact Nat.lt_succ_iff

theorem torMethod_isSome (n : ℕ) : (torMethod n).isSome ↔ n ≤ 16 ∨ 20 ≤ n ∧ n ≤ 27 := by
  have hstd : stdTornadoMethod.length = 17 := rfl
  have hsecond : secondTornadoMethod.length = 8 := rfl
  rw [torMethod]
  split
  · rw [isSome_getElem?]
    omega
  · rw [isSome_getElem?]
    omega

/-- The rows with the two wrappers, and that no row decodes with them. -/
theorem compTable_lzlib : ∀ e ∈ compTable, e.compress = "lzbench_lzlib_compress" →
    e.name = "lzlib" ∧ e.firstLevel = 0 ∧ e.lastLevel = 9 := by
  decide +kernel

theorem compTable_tornado : ∀ e ∈ compTable, e.compress = "lzbench_tornado_compress" →
    e.name = "tornado" ∧ e.firstLevel = 1 ∧ e.lastLevel = 16 := by
  decide +kernel

theorem compTable_decompress : ∀ e ∈ compTable, e.decompress ≠ "lzbench_lzlib_compress" ∧
    e.decompress ≠ "lzbench_tornado_compress" := by
  decide +kernel

/-- A level that is written, as an index. -/
theorem levelInRange_toSize {n : ℤ} (hint : IsInt n) (function : String) :
    LevelInRange function (toSize n) ↔
      (function = "lzbench_lzlib_compress" → 0 ≤ n ∧ n ≤ 9) ∧
      (function = "lzbench_tornado_compress" →
        n % 256 ≤ 16 ∨ 20 ≤ n % 256 ∧ n % 256 ≤ 27) := by
  obtain ⟨hlow, hhigh⟩ := hint
  have hbyte : ((toSize n % 2 ^ 8 : ℕ) : ℤ) = n % 256 := by
    simp only [toSize]
    omega
  have hindex : toSize n ≤ 9 ↔ 0 ≤ n ∧ n ≤ 9 := by
    simp only [toSize]
    omega
  rw [LevelInRange, optionMapping_isSome, torMethod_isSome, hindex]
  refine and_congr_right fun _ => ?_
  refine imp_congr_right fun _ => ?_
  omega

/-- The event is no call out of range. -/
def ListEvent.InRange : ListEvent → Prop
  | test entry _ param1 => entry ∈ compTable ∧ LevelInRange entry.compress param1
  | _ => True

/-- Good levels are in range, as are all levels of a row. -/
theorem paramEvents_inRange {name : List Char} {param : Option (List Char)}
    (h : ∀ p ∈ param, LevelGood name p) : ∀ e ∈ paramEvents name param, e.InRange := by
  intro e he
  simp only [paramEvents] at he
  split at he
  · rw [List.mem_singleton.mp he]
    trivial
  · rename_i entry hfind
    have hmem : entry ∈ compTable := List.mem_of_mem_drop (List.mem_of_find?_eq_some hfind)
    have hname : istrcmp entry.name.toList name = 0 := by simpa using List.find?_some hfind
    split at he
    · -- all levels of the row
      obtain ⟨level, hlevel, rfl⟩ := List.mem_map.mp he
      obtain ⟨i, hi, rfl⟩ := List.mem_map.mp hlevel
      rw [List.mem_range] at hi
      refine ⟨hmem, ?_, ?_⟩
      · intro hlzlib
        obtain ⟨-, hfirst, hlast⟩ := compTable_lzlib entry hmem hlzlib
        rw [optionMapping_isSome, toSize]
        omega
      · intro htornado
        obtain ⟨-, hfirst, hlast⟩ := compTable_tornado entry hmem htornado
        rw [torMethod_isSome, toSize]
        omega
    · rename_i p
      obtain ⟨hlzlib, htornado⟩ := h p rfl
      rw [List.mem_singleton.mp he]
      refine ⟨hmem, (levelInRange_toSize (isInt_atoi p) _).mpr ⟨?_, ?_⟩⟩
      · intro hfunction
        rw [(compTable_lzlib entry hmem hfunction).1] at hname
        exact hlzlib hname
      · intro hfunction
        rw [(compTable_tornado entry hmem hfunction).1] at hname
        exact htornado hname

theorem nameEvents_inRange {cparams : List (List Char)} (h : CparamsGood cparams) :
    ∀ e ∈ nameEvents cparams, e.InRange := by
  match cparams with
  | [] => simp [nameEvents]
  | [name] => exact paramEvents_inRange (by simp)
  | name :: p :: params =>
    intro e he
    obtain ⟨param, hparam, he⟩ := List.mem_flatMap.mp he
    refine paramEvents_inRange ?_ e he
    intro p' hp'
    rw [Option.mem_some.mp hp'] at hparam
    exact h p' hparam

/-- The events of a good list. -/
theorem listEvents_inRange (fuel : ℕ) {names : List Char} (h : LevelsGood names) :
    ∀ e ∈ listEvents fuel names, e.InRange := by
  induction fuel generalizing names with
  | zero => simp [listEvents, ListEvent.InRange]
  | succ fuel ih =>
    intro e he
    obtain ⟨cname, hcname, he⟩ := List.mem_flatMap.mp he
    cases halias : aliasOf cname with
    | some a =>
      rw [halias] at he
      exact ih (aliasDesc_levels a (aliasOf_mem halias)) e he
    | none =>
      rw [halias] at he
      exact nameEvents_inRange (h cname hcname) e he

/-- An alias in a list has no levels. -/
theorem split_alias {cname : List Char} {a : AliasDesc} (h : aliasOf cname = some a) :
    split cname ',' = [cname] := by
  have hname : istrcmp cname a.name.toList = 0 := by simpa using List.find?_some h
  refine split_token (not_mem_of_not_mem_lower rfl ?_)
  rw [(istrcmp_eq_zero_iff _ _).mp hname]
  exact aliasDesc_names a (aliasOf_mem h)

/-- A level that is written behind the name of a row is an event. -/
theorem mem_listEvents_level (fuel : ℕ) {names cname name : List Char} {params : List (List Char)}
    (hcname : cname ∈ split names '/') (hsplit : split cname ',' = name :: params) {p : List Char}
    (hp : p ∈ params) {entry : CompEntry} (hentry : entry ∈ compTable.drop 1)
    (hname : istrcmp entry.name.toList name = 0) :
    .test entry (atoi p) (toSize (atoi p)) ∈ listEvents (fuel + 1) names := by
  refine List.mem_flatMap.mpr ⟨cname, hcname, ?_⟩
  cases halias : aliasOf cname with
  | some a =>
    rw [split_alias halias] at hsplit
    cases hsplit
    cases hp
  | none =>
    have hevent : ListEvent.test entry (atoi p) (toSize (atoi p)) ∈ paramEvents name (some p) := by
      simp only [paramEvents, find?_row hentry hname]
      exact List.mem_singleton_self _
    cases params with
    | nil => cases hp
    | cons q params =>
      simp only [hsplit, nameEvents]
      exact List.mem_flatMap.mpr ⟨p, hp, hevent⟩

/-! ## Good lists -/

section Good

variable {σ : Type} {wrappers wrappers' : Wrappers σ}

/-- No decoder is one of the two wrappers, so a compressor differs in calls out of range. -/
theorem sameAt_desc (h : AgreeInRange wrappers wrappers') {entry : CompEntry}
    (hentry : entry ∈ compTable) {param1 : ℕ} (hrange : LevelInRange entry.compress param1) :
    SameAt param1 (entry.desc wrappers) (entry.desc wrappers') where
  row _ := rfl
  additionalParam := rfl
  maxBlockSize := rfl
  init := congrArg entry.init.bind h.init
  deinit := congrArg entry.deinit.bind h.deinit
  decompress := by
    obtain ⟨hlzlib, htornado⟩ := compTable_decompress entry hentry
    have hcode := h.code entry.decompress
    change wrappers.code entry.decompress = wrappers'.code entry.decompress
    generalize wrappers.code entry.decompress = c, wrappers'.code entry.decompress = c' at hcode ⊢
    cases hcode with
    | none => rfl
    | some hcall =>
      congr 1
      funext a w
      exact hcall a w ⟨fun heq => (hlzlib heq).elim, fun heq => (htornado heq).elim⟩
  compress := by
    have hcode := h.code entry.compress
    change Option.Rel _ (wrappers.code entry.compress) (wrappers'.code entry.compress)
    generalize wrappers.code entry.compress = c, wrappers'.code entry.compress = c' at hcode ⊢
    cases hcode with
    | none => exact .none
    | some hcall => exact .some fun a w ha => hcall a w (ha ▸ hrange)

/-- Runs of events in range agree. -/
theorem perform_congr (h : AgreeInRange wrappers wrappers') (host : Host σ) (fuel : ℕ)
    (input : Input) (comprsize : ℕ) {e : ListEvent} (he : e.InRange) (s : Bench σ) :
    e.perform (benchActions host fuel input comprsize) wrappers s =
      e.perform (benchActions host fuel input comprsize) wrappers' s := by
  cases e with
  | test entry level param1 =>
    obtain ⟨hentry, hrange⟩ := he
    simp only [ListEvent.perform, benchActions, benchTest,
      lzbenchTest_congr (sameAt_desc h hentry hrange)]
  | notFound name param => rfl
  | hang => rfl

theorem benchEncoders_congr (h : AgreeInRange wrappers wrappers') {names : String}
    (hgood : LevelsGood names.toList) (host : Host σ) (fuel : ℕ) (input : Input) (comprsize : ℕ)
    (s : Bench σ) : benchEncoders host fuel wrappers (some names) input comprsize s =
      benchEncoders host fuel wrappers' (some names) input comprsize s := by
  rw [benchEncoders, benchEncoders, lzbenchTestWithParams_eq, lzbenchTestWithParams_eq]
  exact foldlM_congr
    (fun e he => perform_congr h host fuel input comprsize (listEvents_inRange fuel hgood e he)) s

/-- Functions that do nothing out of range. -/
def Wrappers.guarded (wrappers : Wrappers σ) : Wrappers σ where
  code function := (wrappers.code function).map fun c a w =>
    if LevelInRange function a.param1 then c a w else ⟨0, a.outbuf, w⟩
  init := wrappers.init
  deinit := wrappers.deinit

theorem agreeInRange_guarded (wrappers : Wrappers σ) :
    AgreeInRange wrappers wrappers.guarded where
  init := rfl
  deinit := rfl
  code function := by
    change Option.Rel _ _ ((wrappers.code function).map _)
    cases wrappers.code function with
    | none => exact .none
    | some c => exact .some fun a w ha => (if_pos ha).symm

/-- They log no call out of range. -/
theorem keeps_guarded {host : Host σ} {log : σ → List (String × ℕ)}
    (h : Logs host wrappers log) :
    Keeps host wrappers.guarded fun w => ∀ call ∈ log w, LevelInRange call.1 call.2 := by
  have hcode : ∀ function c, wrappers.guarded.code function = some c →
      CodecKeeps (fun w => ∀ call ∈ log w, LevelInRange call.1 call.2) c := by
    intro function c hc a w hw
    obtain ⟨c, hcode, rfl⟩ := Option.map_eq_some_iff.mp hc
    beta_reduce
    split
    · rename_i hrange
      rw [h.code function c hcode]
      intro call hcall
      cases List.mem_append.mp hcall with
      | inl hold => exact hw call hold
      | inr hnew => exact List.mem_singleton.mp hnew ▸ hrange
    · exact hw
  refine ⟨⟨?_, ?_⟩, ?_⟩
  · intro w hw
    rwa [h.getTime]
  · intro w hw
    rwa [h.uniSleep]
  · intro d hd
    obtain ⟨entry, -, rfl⟩ := List.mem_map.mp hd
    refine ⟨hcode entry.compress, hcode entry.decompress, ?_, ?_⟩
    · intro f hf n p q w hw
      obtain ⟨function, -, hinit⟩ := Option.bind_eq_some_iff.mp hf
      rwa [h.init function f hinit]
    · intro f hf m w hw
      obtain ⟨function, -, hdeinit⟩ := Option.bind_eq_some_iff.mp hf
      rwa [h.deinit function f hdeinit]

end Good

/-- Good levels lead to no call out of range. -/
theorem levelsInRange_of_good {names : String} (hgood : LevelsGood names.toList) :
    LevelsInRange names where
  logged := by
    intro σ host wrappers log h fuel input comprsize s hstart
    rw [benchEncoders_congr (agreeInRange_guarded wrappers) hgood]
    refine ends_benchEncoders_keeps (keeps_guarded h) ?_
    intro call hcall
    rw [hstart] at hcall
    cases hcall
  independent h host fuel input comprsize s :=
    benchEncoders_congr h hgood host fuel input comprsize s

/-! ## Other lists

Whether a call is made does not hang on its level, only on what codecs and the clock do.  So that
each level of a list is tried, one world is enough: the first call of a run takes a second, and
the run is left as too slow. -/

/-- The world is the log of all calls, each of which takes a second. -/
def logHost : Host (List (String × ℕ)) where
  env := ⟨fun w => (w.length * 1000000000, w), id, 0⟩
  isDirectory _ w := (false, w)
  totalFileSize _ w := (0, w)
  fopen _ w := (none, w)
  fclose _ w := w
  ftello _ w := (0, w)
  fseeko _ _ w := w
  fread _ _ w := ([], w)
  fread_le _ n _ := Nat.zero_le n
  rand w := (0, w)
  malloc _ w := (none, w)
  calloc _ w := (false, w)

/-- All functions are there, and log their calls. -/
def logWrappers : Wrappers (List (String × ℕ)) where
  code function := some fun a w => ⟨1, a.outbuf, w ++ [(function, a.param1)]⟩
  init _ := none
  deinit _ := none

theorem logs_log : Logs logHost logWrappers id where
  getTime _ := rfl
  uniSleep _ := rfl
  init _ _ h := nomatch h
  deinit _ _ h := nomatch h
  code _ _ h _ _ := by
    obtain rfl := Option.some.inj h
    rfl

/-- The call of an event, as it is logged. -/
def ListEvent.logged : ListEvent → Option (String × ℕ)
  | test entry _ param1 => some (entry.compress, param1)
  | _ => none

/-- A run is too slow after its first call. -/
theorem lzbenchTest_logged {params : LzbenchParams} (hspeed : params.cspeed = 1)
    (fileSizes : List ℕ) (entry : CompEntry) (level : ℤ) (inbuf : Mem) (insize : ℕ)
    (comprsize : UInt64) (param1 fuel : ℕ) (compbuf decomp : Mem) (w : List (String × ℕ)) :
    lzbenchTest logHost.env params fileSizes (entry.desc logWrappers) level inbuf insize comprsize
        param1 fuel compbuf decomp w =
      .ok (unreported params compbuf decomp (w ++ [(entry.compress, param1)])) := by
  have hticks : ∀ n : ℕ, getDiffTime (n * 1000000000) ((n + 1) * 1000000000) = 1000000000 := by
    intro n
    simp only [getDiffTime, subSize, toSize]
    omega
  have hinit : ∀ n p q, initWorkmem (entry.desc logWrappers) n p q w = (0, w) := by
    intro n p q
    cases hname : entry.init <;> simp [initWorkmem, CompEntry.desc, hname, logWrappers]
  have hdeinit : ∀ m w', deinitWorkmem (entry.desc logWrappers) m w' = w' := by
    intro m w'
    cases hname : entry.deinit <;> simp [deinitWorkmem, CompEntry.desc, hname, logWrappers]
  have htried : ∀ compress chunkSize param2 workmem,
      (entry.desc logWrappers).compress = some compress →
      tryCspeed logHost.env params compress chunkSize inbuf param1 param2 workmem compbuf w =
        (true, compbuf, w ++ [(entry.compress, param1)]) := by
    intro compress chunkSize param2 workmem h
    obtain rfl := Option.some.inj h
    have hpart : min (100 * 1024) chunkSize / 1000000 < 1 := by omega
    simp [tryCspeed, hspeed, logHost, hticks, hpart]
  obtain ⟨compress, hcompress⟩ : ∃ c, (entry.desc logWrappers).compress = some c := ⟨_, rfl⟩
  obtain ⟨decompress, hdecompress⟩ : ∃ c, (entry.desc logWrappers).decompress = some c := ⟨_, rfl⟩
  simp only [lzbenchTest, hcompress, hdecompress, hinit, htried _ _ _ _ hcompress, hdeinit, if_true]

/-- The log has the call of every event. -/
theorem foldlM_logged {events : List ListEvent} (hhang : .hang ∉ events) (fuel : ℕ) (input : Input)
    (comprsize : ℕ) {s : Bench (List (String × ℕ))} (hspeed : s.params.cspeed = 1) :
    ∃ s', events.foldlM (ListEvent.perform (benchActions logHost fuel input comprsize) logWrappers)
        s = .ok s' ∧ s'.world = s.world ++ events.filterMap ListEvent.logged := by
  induction events generalizing s with
  | nil => exact ⟨s, rfl, (List.append_nil _).symm⟩
  | cons e events ih =>
    rw [List.mem_cons, not_or] at hhang
    cases e with
    | test entry level param1 =>
      have hstep : ∃ s₁, (ListEvent.test entry level param1).perform
          (benchActions logHost fuel input comprsize) logWrappers s = .ok s₁ ∧
          s₁.params.cspeed = 1 ∧ s₁.world = s.world ++ [(entry.compress, param1)] := by
        simp only [ListEvent.perform, benchActions, benchTest, lzbenchTest_logged hspeed, bind,
          Except.bind]
        exact ⟨_, rfl, hspeed, rfl⟩
      obtain ⟨s₁, hstep, hspeed', hworld⟩ := hstep
      obtain ⟨s', hrun, hlog⟩ := ih hhang.2 hspeed'
      refine ⟨s', (foldlM_cons_of_ok events hstep).trans hrun, ?_⟩
      rw [hlog, hworld, List.append_assoc]
      rfl
    | notFound name param =>
      let s₁ : Bench _ := { s with printed := s.printed ++ [.notFound name param] }
      have hstep : (ListEvent.notFound name param).perform
          (benchActions logHost fuel input comprsize) logWrappers s = .ok s₁ := rfl
      obtain ⟨s', hrun, hlog⟩ := ih hhang.2 (s := s₁) hspeed
      exact ⟨s', (foldlM_cons_of_ok events hstep).trans hrun, hlog⟩
    | hang => exact (hhang.1 rfl).elim

/-- Where no call is out of range, all calls of the list are in range. -/
theorem logged_inRange {names : String} (h : LevelsInRange names) :
    ∀ call ∈ (listEvents 3 names.toList).filterMap ListEvent.logged,
      LevelInRange call.1 call.2 := by
  let input : Input := ⟨[], fun _ => 0, 0⟩
  let s : Bench (List (String × ℕ)) :=
    ⟨{ defaultParams with cspeed := 1 }, fun _ => 0, fun _ => 0, [], [], []⟩
  obtain ⟨s', hrun, hlog⟩ := foldlM_logged (settled_three names.toList).2 3 input 0 (s := s) rfl
  rw [← lzbenchTestWithParams_eq] at hrun
  have hrange := (h.logged logs_log 3 input 0 s rfl).ok s' hrun
  rw [id, hlog] at hrange
  exact hrange

theorem compTable_written : (∃ e ∈ compTable.drop 1, e.name = "lzlib" ∧
      e.compress = "lzbench_lzlib_compress") ∧
    ∃ e ∈ compTable.drop 1, e.name = "tornado" ∧ e.compress = "lzbench_tornado_compress" := by
  decide +kernel

/-- All levels that are written are tried. -/
theorem levelsGood_of_inRange {names : String} (h : LevelsInRange names) :
    LevelsGood names.toList := by
  intro cname hcname
  cases hsplit : split cname ',' with
  | nil => trivial
  | cons name params =>
    intro p hp
    have hlevel : ∀ entry ∈ compTable.drop 1, istrcmp entry.name.toList name = 0 →
        LevelInRange entry.compress (toSize (atoi p)) := by
      intro entry hentry hname
      refine logged_inRange h (entry.compress, toSize (atoi p)) (List.mem_filterMap.mpr ?_)
      exact ⟨_, mem_listEvents_level 2 hcname hsplit hp hentry hname, rfl⟩
    obtain ⟨⟨lzlib, hlzlib, hlname, hlcode⟩, tornado, htornado, htname, htcode⟩ :=
      compTable_written
    constructor
    · intro hname
      have hrange := hlevel lzlib hlzlib (hlname ▸ hname)
      exact ((levelInRange_toSize (isInt_atoi p) _).mp hrange).1 hlcode
    · intro hname
      have hrange := hlevel tornado htornado (htname ▸ hname)
      exact ((levelInRange_toSize (isInt_atoi p) _).mp hrange).2 htcode

/-- An encoder list leads to no call out of range if and only if no level behind `lzlib` and
none behind `tornado` is out of range. -/
theorem levelsInRange_iff (names : String) : LevelsInRange names ↔ LevelsGood names.toList :=
  ⟨levelsGood_of_inRange, levelsInRange_of_good⟩

/-- The table of lzlib has no eleventh entry, and that of tornado no eighteenth. -/
theorem not_levelsInRange : ¬ LevelsInRange "lzlib,10" ∧ ¬ LevelsInRange "tornado,17" := by
  constructor
  · intro h
    have hgood := levelsGood_of_inRange h
    revert hgood
    decide +kernel
  · intro h
    have hgood := levelsGood_of_inRange h
    revert hgood
    decide +kernel

end Lzbench
