import Mathlib.Data.Nat.Notation
import Mathlib.Data.List.Basic

/-!
# Early-exit loops over a state

Two loop shapes, both in `Except ε`, and the invariant rule of each.  An error is
how a loop is left before its end: it carries whatever the program still has at
that point, so a rule bounds what is known on both ways out.

`doWhile` is the post-tested loop `do { s = body s } while (again s)`, and `whileDo` the
pre-tested one.  They recurse on fuel, and running out of it is an error that the caller
names; a theorem about every fuel is therefore about every run that ends.  That a loop
does end is a measure that every round lowers, and that it never does is an invariant
under which it always goes on.

## Main definitions

* `Ends P E r` — `r` ends normally in `P`, or early in `E`.
* `bind_eq_ok` — how a computation of several steps that ended is taken apart.
* `doWhile body again fuel s` — the post-tested loop.
* `whileDo test body fuel s` — the pre-tested loop.
* `Reaches step s xs t x` — the fold comes to the element `x` in the state `t`.
* `ends_foldlM`, `ends_doWhile` — the invariant rules.
* `loopTo step fuel s` — a loop whose body goes on or returns.
* `total_doWhile`, `total_whileDo`, `total_loopTo` — the rules of a loop that ends.
* `doWhile_stuck`, `whileDo_stuck` — the rules of one that does not.
-/

namespace Imperative

universe u v w
variable {α : Type u} {ε : Type v} {σ : Type w}

/-- The result `r` is a normal end that satisfies `P`, or an early one that
satisfies `E`. -/
structure Ends (P : σ → Prop) (E : ε → Prop) (r : Except ε σ) : Prop where
  ok : ∀ s, r = .ok s → P s
  error : ∀ e, r = .error e → E e

@[simp] theorem ends_ok (P : σ → Prop) (E : ε → Prop) (s : σ) :
    Ends P E (.ok s : Except ε σ) ↔ P s :=
  ⟨fun h => h.ok s rfl, fun h => ⟨fun _ hs => (Except.ok.inj hs) ▸ h, fun _ he => nomatch he⟩⟩

@[simp] theorem ends_error (P : σ → Prop) (E : ε → Prop) (e : ε) :
    Ends P E (.error e : Except ε σ) ↔ E e :=
  ⟨fun h => h.error e rfl,
    fun h => ⟨fun _ hs => (nomatch hs), fun _ he => (Except.error.inj he) ▸ h⟩⟩

theorem Ends.mono {P P' : σ → Prop} {E E' : ε → Prop} {r : Except ε σ}
    (h : Ends P E r) (hP : ∀ s, P s → P' s) (hE : ∀ e, E e → E' e) : Ends P' E' r :=
  ⟨fun s hs => hP s (h.ok s hs), fun e he => hE e (h.error e he)⟩

theorem Ends.bind {τ : Type w} {P : σ → Prop} {Q : τ → Prop} {E : ε → Prop}
    {r : Except ε σ} {f : σ → Except ε τ} (h : Ends P E r)
    (hf : ∀ s, P s → Ends Q E (f s)) : Ends Q E (r >>= f) := by
  cases r with
  | ok s => exact hf s (h.ok s rfl)
  | error e => exact (ends_error Q E e).mpr (h.error e rfl)

theorem Ends.map {τ : Type w} {P : σ → Prop} {Q : τ → Prop} {E : ε → Prop} {r : Except ε σ}
    {f : σ → τ} (h : Ends P E r) (hf : ∀ s, P s → Q (f s)) : Ends Q E (r.map f) := by
  cases r with
  | ok s => exact (ends_ok Q E _).mpr (hf s (h.ok s rfl))
  | error e => exact (ends_error Q E e).mpr (h.error e rfl)

/-- What is bound ends normally if it does and what follows does. -/
theorem bind_eq_ok {τ : Type w} {r : Except ε σ} {f : σ → Except ε τ} {t : τ} :
    r >>= f = .ok t ↔ ∃ s, r = .ok s ∧ f s = .ok t := by
  cases r with
  | error e =>
    constructor
    · intro h
      cases h
    · rintro ⟨s, hs, -⟩
      cases hs
  | ok s =>
    constructor
    · intro h
      exact ⟨s, rfl, h⟩
    · rintro ⟨s, hs, ht⟩
      cases hs
      exact ht

/-- A fold whose first step ended goes on from there. -/
theorem foldlM_cons_of_ok {step : σ → α → Except ε σ} {s s' : σ} {x : α} (xs : List α)
    (h : step s x = .ok s') : (x :: xs).foldlM step s = xs.foldlM step s' := by
  rw [List.foldlM_cons, h]
  rfl

/-- A fold over lists side by side. -/
theorem foldlM_flatMap {β : Type*} (f : α → List β) (step : σ → β → Except ε σ) (xs : List α)
    (s : σ) : (xs.flatMap f).foldlM step s = xs.foldlM (fun s x => (f x).foldlM step s) s := by
  induction xs generalizing s with
  | nil => rfl
  | cons x xs ih =>
    rw [List.flatMap_cons, List.foldlM_append, List.foldlM_cons]
    simp only [ih]

/-- The invariant of a left fold sees the elements already consumed. -/
theorem ends_foldlM {step : σ → α → Except ε σ} (I : List α → σ → Prop) {E : ε → Prop}
    (xs : List α) {s : σ} (h0 : I [] s)
    (hstep : ∀ done x rest s, xs = done ++ x :: rest → I done s →
      Ends (I (done ++ [x])) E (step s x)) :
    Ends (I xs) E (xs.foldlM step s) := by
  -- the consumed prefix grows while the remaining suffix is the induction variable
  suffices H : ∀ rest done s, xs = done ++ rest → I done s →
      Ends (I xs) E (rest.foldlM step s) from H xs [] s rfl h0
  intro rest
  induction rest with
  | nil =>
    intro done s hxs hs
    rw [List.append_nil] at hxs
    subst hxs
    exact (ends_ok _ E s).mpr hs
  | cons x rest ih =>
    intro done s hxs hs
    rw [List.foldlM_cons]
    apply (hstep done x rest s hxs hs).bind
    intro s' hs'
    exact ih (done ++ [x]) s' (by rw [hxs, List.append_assoc]; rfl) hs'

/-- Steps that agree wherever the fold comes make the same fold. -/
theorem foldlM_congr_of_inv {step step' : σ → α → Except ε σ} (I : List α → σ → Prop)
    (xs : List α) {s : σ} (h0 : I [] s)
    (h : ∀ done x rest s, xs = done ++ x :: rest → I done s →
      step s x = step' s x ∧ ∀ s', step s x = .ok s' → I (done ++ [x]) s') :
    xs.foldlM step s = xs.foldlM step' s := by
  suffices H : ∀ rest done s, xs = done ++ rest → I done s →
      rest.foldlM step s = rest.foldlM step' s from H xs [] s rfl h0
  intro rest
  induction rest with
  | nil => exact fun _ _ _ _ => rfl
  | cons x rest ih =>
    intro done s hxs hs
    obtain ⟨heq, hnext⟩ := h done x rest s hxs hs
    rw [List.foldlM_cons, List.foldlM_cons, ← heq]
    cases hstep : step s x with
    | error e => rfl
    | ok s' => exact ih (done ++ [x]) s' (by rw [hxs, List.append_assoc]; rfl) (hnext s' hstep)

/-- Steps that agree on the elements make the same fold. -/
theorem foldlM_congr {step step' : σ → α → Except ε σ} {xs : List α}
    (h : ∀ x ∈ xs, ∀ s, step s x = step' s x) (s : σ) :
    xs.foldlM step s = xs.foldlM step' s :=
  foldlM_congr_of_inv (fun _ _ => True) xs trivial fun _ x _ s hxs _ =>
    ⟨h x (by rw [hxs]; exact List.mem_append_right _ List.mem_cons_self) s, fun _ _ => trivial⟩

/-- The left fold over `xs` from `s` comes to the element `x` in the state `t`. -/
def Reaches (step : σ → α → Except ε σ) (s : σ) (xs : List α) (t : σ) (x : α) : Prop :=
  ∃ done rest, xs = done ++ x :: rest ∧ done.foldlM step s = .ok t

theorem not_reaches_nil {step : σ → α → Except ε σ} {s t : σ} {x : α} :
    ¬ Reaches step s [] t x := by
  rintro ⟨done, rest, hxs, -⟩
  simp at hxs

/-- A fold comes to its first element, and to what the fold over the others comes to once
the first step is made. -/
theorem reaches_cons {step : σ → α → Except ε σ} {s t : σ} {y x : α} {ys : List α} :
    Reaches step s (y :: ys) t x ↔
      (t = s ∧ x = y) ∨ ∃ s', step s y = .ok s' ∧ Reaches step s' ys t x := by
  constructor
  · rintro ⟨done, rest, hxs, hrun⟩
    cases done with
    | nil =>
      obtain ⟨rfl, rfl⟩ := List.cons.inj hxs
      exact Or.inl ⟨(Except.ok.inj hrun).symm, rfl⟩
    | cons z done =>
      obtain ⟨rfl, rfl⟩ := List.cons.inj hxs
      rw [List.foldlM_cons] at hrun
      obtain ⟨s', hstep, hrun⟩ := bind_eq_ok.mp hrun
      exact Or.inr ⟨s', hstep, done, rest, rfl, hrun⟩
  · intro h
    cases h with
    | inl h =>
      obtain ⟨rfl, rfl⟩ := h
      exact ⟨[], ys, rfl, rfl⟩
    | inr h =>
      obtain ⟨s', hstep, done, rest, rfl, hrun⟩ := h
      refine ⟨y :: done, rest, rfl, ?_⟩
      rw [List.foldlM_cons, hstep]
      exact hrun

/-- A step that leaves the fold, where the fold comes to it, decides how it ends. -/
theorem Reaches.error {step : σ → α → Except ε σ} {s t : σ} {xs : List α} {x : α} {e : ε}
    (h : Reaches step s xs t x) (hstep : step t x = .error e) : xs.foldlM step s = .error e := by
  obtain ⟨done, rest, rfl, hrun⟩ := h
  rw [List.foldlM_append, hrun]
  simp only [bind, Except.bind, List.foldlM_cons, hstep]

/-- `do { s = body s } while (again s)`, for at most `fuel` rounds. -/
def doWhile (stuck : σ → ε) (body : σ → Except ε σ) (again : σ → Bool) :
    ℕ → σ → Except ε σ
  | 0, s => .error (stuck s)
  | fuel + 1, s => do
      let s' ← body s
      if again s' then doWhile stuck body again fuel s' else pure s'

/-- A loop that is left after its first round. -/
theorem doWhile_once {stuck : σ → ε} {body : σ → Except ε σ} {again : σ → Bool} {fuel : ℕ}
    {s s' : σ} (h : body s = .ok s') (hlast : again s' = false) :
    doWhile stuck body again (fuel + 1) s = .ok s' := by
  rw [doWhile, h]
  simp only [bind, Except.bind, hlast]
  rfl

/-- A loop whose first round is left early. -/
theorem doWhile_error {stuck : σ → ε} {body : σ → Except ε σ} {again : σ → Bool} {fuel : ℕ}
    {s : σ} {e : ε} (h : body s = .error e) :
    doWhile stuck body again (fuel + 1) s = .error e := by
  rw [doWhile, h]
  rfl

/-- The loop invariant `I` holds whenever the body is entered, and `Q` when the
loop is left through its test. -/
theorem ends_doWhile {stuck : σ → ε} {body : σ → Except ε σ} {again : σ → Bool}
    {I Q : σ → Prop} {E : ε → Prop}
    (hstuck : ∀ s, I s → E (stuck s))
    (hbody : ∀ s, I s → Ends (fun s' => if again s' then I s' else Q s') E (body s))
    (fuel : ℕ) {s : σ} (h0 : I s) : Ends Q E (doWhile stuck body again fuel s) := by
  induction fuel generalizing s with
  | zero => exact (ends_error Q E _).mpr (hstuck s h0)
  | succ fuel ih =>
    apply (hbody s h0).bind
    intro s' hs'
    by_cases hag : again s'
    · rw [if_pos hag] at hs' ⊢
      exact ih hs'
    · rw [if_neg hag] at hs' ⊢
      exact (ends_ok Q E s').mpr hs'

/-- A post-tested loop runs its body at least once, so a postcondition that every
round re-establishes needs no invariant before the first. -/
theorem ends_doWhile_of_body {stuck : σ → ε} {body : σ → Except ε σ} {again : σ → Bool}
    {I : σ → Prop} {Q : σ → Prop} {E : ε → Prop}
    (hstuck : ∀ s, I s → E (stuck s))
    (hbody : ∀ s, I s → Ends (fun s' => I s' ∧ Q s') E (body s))
    (fuel : ℕ) {s : σ} (h0 : I s) : Ends Q E (doWhile stuck body again fuel s) := by
  refine ends_doWhile hstuck (fun s hs => ?_) fuel h0
  refine (hbody s hs).mono (fun s' hs' => ?_) fun _ he => he
  split
  · exact hs'.1
  · exact hs'.2

/-- A post-tested loop whose rounds lower `measure` has one result, the same for all
fuel beyond the measure. -/
theorem total_doWhile {stuck : σ → ε} {body : σ → Except ε σ} {again : σ → Bool}
    {I Q : σ → Prop} {E : ε → Prop} (measure : σ → ℕ)
    (hbody : ∀ s, I s →
      Ends (fun s' => if again s' then I s' ∧ measure s' < measure s else Q s') E (body s))
    {s : σ} (h0 : I s) :
    ∃ r, Ends Q E r ∧ ∀ fuel, measure s < fuel → doWhile stuck body again fuel s = r := by
  -- the measure bounds the rounds left, so the induction is on it, for every state below
  induction hm : measure s using Nat.strongRecOn generalizing s with
  | ind m ih =>
    have hround := hbody s h0
    cases hb : body s with
    | error e =>
      rw [hb, ends_error] at hround
      refine ⟨.error e, (ends_error Q E e).mpr hround, fun fuel hfuel => ?_⟩
      obtain ⟨n, rfl⟩ := Nat.exists_eq_succ_of_ne_zero (by omega : fuel ≠ 0)
      exact doWhile_error hb
    | ok s' =>
      rw [hb, ends_ok] at hround
      by_cases hag : again s' = true
      · rw [if_pos hag, hm] at hround
        obtain ⟨r, hr, hrun⟩ := ih _ hround.2 hround.1 rfl
        refine ⟨r, hr, fun fuel hfuel => ?_⟩
        obtain ⟨n, rfl⟩ := Nat.exists_eq_succ_of_ne_zero (by omega : fuel ≠ 0)
        rw [doWhile, hb]
        simp only [bind, Except.bind, hag, if_true]
        exact hrun n (by omega)
      · rw [if_neg hag] at hround
        refine ⟨.ok s', (ends_ok Q E s').mpr hround, fun fuel hfuel => ?_⟩
        obtain ⟨n, rfl⟩ := Nat.exists_eq_succ_of_ne_zero (by omega : fuel ≠ 0)
        exact doWhile_once hb (Bool.eq_false_iff.mpr hag)

/-- A post-tested loop that always goes on runs out of any fuel. -/
theorem doWhile_stuck {stuck : σ → ε} {body : σ → Except ε σ} {again : σ → Bool} {I : σ → Prop}
    (hbody : ∀ s, I s → ∃ s', body s = .ok s' ∧ again s' = true ∧ I s') (fuel : ℕ) {s : σ}
    (h0 : I s) : ∃ s', I s' ∧ doWhile stuck body again fuel s = .error (stuck s') := by
  induction fuel generalizing s with
  | zero => exact ⟨s, h0, rfl⟩
  | succ fuel ih =>
    obtain ⟨s', hb, hag, hs'⟩ := hbody s h0
    obtain ⟨t, ht, hrun⟩ := ih hs'
    refine ⟨t, ht, ?_⟩
    rw [doWhile, hb]
    simp only [bind, Except.bind, hag, if_true]
    exact hrun

/-- `while (test s) s = body s`, for at most `fuel` rounds; `none` when they are not enough. -/
def whileDo (test : σ → Bool) (body : σ → σ) : ℕ → σ → Option σ
  | 0, s => if test s then none else some s
  | fuel + 1, s => if test s then whileDo test body fuel (body s) else some s

/-- A pre-tested loop whose rounds lower `measure` ends, with the same state for all fuel
from the measure on. -/
theorem total_whileDo {test : σ → Bool} {body : σ → σ} {I : σ → Prop} (measure : σ → ℕ)
    (hbody : ∀ s, I s → test s = true → I (body s) ∧ measure (body s) < measure s)
    {s : σ} (h0 : I s) :
    ∃ t, I t ∧ test t = false ∧ ∀ fuel, measure s ≤ fuel → whileDo test body fuel s = some t := by
  induction hm : measure s using Nat.strongRecOn generalizing s with
  | ind m ih =>
    by_cases ht : test s = true
    · obtain ⟨hI, hlt⟩ := hbody s h0 ht
      obtain ⟨t, hIt, hend, hrun⟩ := ih _ (hm ▸ hlt) hI rfl
      refine ⟨t, hIt, hend, fun fuel hfuel => ?_⟩
      obtain ⟨n, rfl⟩ := Nat.exists_eq_succ_of_ne_zero (by omega : fuel ≠ 0)
      rw [whileDo, if_pos ht]
      exact hrun n (by omega)
    · refine ⟨s, h0, Bool.eq_false_iff.mpr ht, fun fuel _ => ?_⟩
      cases fuel with
      | zero => rw [whileDo, if_neg ht]
      | succ n => rw [whileDo, if_neg ht]

/-- A pre-tested loop that always goes on runs out of any fuel. -/
theorem whileDo_stuck {test : σ → Bool} {body : σ → σ} {I : σ → Prop}
    (hbody : ∀ s, I s → test s = true ∧ I (body s)) (fuel : ℕ) {s : σ} (h0 : I s) :
    whileDo test body fuel s = none := by
  induction fuel generalizing s with
  | zero => rw [whileDo, if_pos (hbody s h0).1]
  | succ fuel ih =>
    rw [whileDo, if_pos (hbody s h0).1]
    exact ih (hbody s h0).2

/-! ## Loops that return -/

section LoopTo

variable {β : Type v}

/-- A loop whose body goes on with a state or returns a result, for at most `fuel` rounds. -/
def loopTo (step : σ → σ ⊕ β) : ℕ → σ → Option β
  | 0, _ => none
  | fuel + 1, s =>
    match step s with
    | .inl s' => loopTo step fuel s'
    | .inr b => some b

theorem loopTo_next {step : σ → σ ⊕ β} {s s' : σ} (h : step s = .inl s') (fuel : ℕ) :
    loopTo step (fuel + 1) s = loopTo step fuel s' := by
  simp only [loopTo, h]

/-- A state that follows itself is never left. -/
theorem loopTo_self {step : σ → σ ⊕ β} {s : σ} (h : step s = .inl s) (fuel : ℕ) :
    loopTo step fuel s = none := by
  induction fuel with
  | zero => rfl
  | succ fuel ih => rw [loopTo_next h, ih]

theorem loopTo_return {step : σ → σ ⊕ β} {s : σ} {b : β} (h : step s = .inr b) (fuel : ℕ) :
    loopTo step (fuel + 1) s = some b := by
  simp only [loopTo, h]

/-- A loop whose rounds lower `measure` returns, the same for all fuel beyond the measure; what
is known of the result and the next state is known of it and this one. -/
theorem total_loopTo_rel {step : σ → σ ⊕ β} {I : σ → Prop} {P : σ → β → Prop} (measure : σ → ℕ)
    (hnext : ∀ s s', I s → step s = .inl s' →
      (I s' ∧ measure s' < measure s) ∧ ∀ b, P s' b → P s b)
    (hreturn : ∀ s b, I s → step s = .inr b → P s b) {s : σ} (h0 : I s) :
    ∃ b, P s b ∧ ∀ fuel, measure s < fuel → loopTo step fuel s = some b := by
  induction hm : measure s using Nat.strongRecOn generalizing s with
  | ind m ih =>
    cases hs : step s with
    | inl s' =>
      obtain ⟨⟨hI, hlt⟩, hback⟩ := hnext s s' h0 hs
      obtain ⟨b, hb, hrun⟩ := ih _ (hm ▸ hlt) hI rfl
      refine ⟨b, hback b hb, fun fuel hfuel => ?_⟩
      obtain ⟨n, rfl⟩ := Nat.exists_eq_succ_of_ne_zero (by omega : fuel ≠ 0)
      rw [loopTo_next hs]
      exact hrun n (by omega)
    | inr b =>
      refine ⟨b, hreturn s b h0 hs, fun fuel hfuel => ?_⟩
      obtain ⟨n, rfl⟩ := Nat.exists_eq_succ_of_ne_zero (by omega : fuel ≠ 0)
      exact loopTo_return hs n

/-- The same where what is known of the result has nothing to do with the state. -/
theorem total_loopTo {step : σ → σ ⊕ β} {I : σ → Prop} {Q : β → Prop} (measure : σ → ℕ)
    (hnext : ∀ s s', I s → step s = .inl s' → I s' ∧ measure s' < measure s)
    (hreturn : ∀ s b, I s → step s = .inr b → Q b) {s : σ} (h0 : I s) :
    ∃ b, Q b ∧ ∀ fuel, measure s < fuel → loopTo step fuel s = some b :=
  total_loopTo_rel measure (fun s s' hs h => ⟨hnext s s' hs h, fun _ hb => hb⟩) hreturn h0

end LoopTo

end Imperative
