import TorchComms.Foundation.Run

/-! # Two computations that match

Both end with results that are related, or both with the same fault. Two runs match where their steps
do, also when one of them takes more steps that the relation does not see.
-/
namespace TorchComms.Foundation

universe u v

variable {α γ : Type u} {β δ : Type v} {σ τ ι ε : Type*}

inductive Matched (R : α → β → Prop) : Except ε α → Except ε β → Prop
  | ok {a : α} {b : β} (h : R a b) : Matched R (.ok a) (.ok b)
  | error (e : ε) : Matched R (.error e) (.error e)

variable {x : Except ε α} {y : Except ε β}

theorem Matched.mono {R S : α → β → Prop} (h : Matched R x y)
    (himp : ∀ a b, R a b → S a b) : Matched S x y := by
  cases h with
  | ok h => exact Matched.ok (himp _ _ h)
  | error e => exact Matched.error e

/-- The rule of sequencing. -/
theorem Matched.bind {R : α → β → Prop} {S : γ → δ → Prop}
    {f : α → Except ε γ} {g : β → Except ε δ} (h : Matched R x y)
    (hf : ∀ a b, R a b → Matched S (f a) (g b)) : Matched S (x >>= f) (y >>= g) := by
  cases h with
  | ok h => exact hf _ _ h
  | error e => exact Matched.error e

theorem Matched.of_eq {R : α → α → Prop} (h : ∀ a, R a a) : Matched R x x := by
  cases x with
  | ok a => exact Matched.ok (h a)
  | error e => exact Matched.error e

theorem Matched.with_ok {R : α → β → Prop} (h : Matched R x y) :
    Matched (fun a b => R a b ∧ x = .ok a ∧ y = .ok b) x y := by
  cases h with
  | ok h => exact Matched.ok ⟨h, rfl, rfl⟩
  | error e => exact Matched.error e

theorem Matched.map_eq {R : α → β → Prop} {f : α → σ} {g : β → σ}
    (h : Matched R x y) (hfg : ∀ a b, R a b → f a = g b) : x.map f = y.map g := by
  cases h with
  | ok h => exact congrArg Except.ok (hfg _ _ h)
  | error e => rfl

/-- The rule of runs: a step of one that the other lacks keeps the relation, all others match. -/
theorem run_erase {step : σ → ι → Except ε σ} {step' : τ → ι → Except ε τ}
    {allowed : List ι → σ → ι → Prop} {seen : ι → Bool} {R : σ → τ → Prop}
    (hseen : ∀ s t i, R s t → seen i = true → Matched R (step s i) (step' t i))
    (hunseen : ∀ past s t i, R s t → seen i = false → allowed past s i →
      ∃ s', step s i = .ok s' ∧ R s' t)
    {past : List ι} {s : σ} {t : τ} {is : List ι} (hinit : R s t)
    (hadm : Admissible step allowed past s is) :
    Matched R (run step s is) (run step' t (is.filter seen)) := by
  induction is generalizing past s t with
  | nil => exact Matched.ok hinit
  | cons i is ih =>
    obtain ⟨hi, hrest⟩ := hadm
    cases hcase : seen i with
    | false =>
      rcases hunseen past s t i hinit hcase hi with ⟨s', hs', hr⟩
      rw [hs'] at hrest
      rw [run_cons_ok is hs', List.filter_cons_of_neg (by simp [hcase])]
      exact ih hr hrest
    | true =>
      have hstep := hseen s t i hinit hcase
      rw [List.filter_cons_of_pos hcase, run, run]
      revert hrest
      generalize step s i = x at hstep ⊢
      generalize step' t i = y at hstep ⊢
      intro hrest
      cases hstep with
      | ok hr => exact ih hr hrest
      | error e => exact Matched.error e

end TorchComms.Foundation

/-! ## Systems that behave alike

Two states behave alike when each run from the one is, event by event, a run from the other, and
both end in states that show the same. A symmetric relation that steps preserve gives this.
-/
namespace TorchComms.Foundation

variable {σ ι α : Type*} {step : σ → ι → σ → Prop} {shows : σ → α} {R : σ → σ → Prop}
  {s s' t : σ} {is : List ι}

inductive Runs (step : σ → ι → σ → Prop) : σ → List ι → σ → Prop
  | nil (s : σ) : Runs step s [] s
  | cons {s t u : σ} {i : ι} {is : List ι} (h : step s i t) (hrest : Runs step t is u) :
      Runs step s (i :: is) u

/-- The run rule of an invariant that also speaks of the events so far. -/
theorem Runs.invariant (Inv : List ι → σ → Prop) (past : List ι) (hrun : Runs step s is s')
    (hstep : ∀ past s i s', Inv past s → step s i s' → Inv (past ++ [i]) s')
    (hinit : Inv past s) : Inv (past ++ is) s' := by
  induction hrun generalizing past with
  | nil s => simpa using hinit
  | cons h _ ih => simpa using ih _ (hstep _ _ _ _ hinit h)

/-- The step rule of a simulation. -/
def Simulates (step : σ → ι → σ → Prop) (R : σ → σ → Prop) : Prop :=
  ∀ s t i s', R s t → step s i s' → ∃ t', step t i t' ∧ R s' t'

theorem Simulates.runs (h : Simulates step R) (hst : R s t) (hrun : Runs step s is s') :
    ∃ t', Runs step t is t' ∧ R s' t' := by
  induction hrun generalizing t with
  | nil s => exact ⟨t, .nil t, hst⟩
  | cons hstep _ ih =>
    obtain ⟨t₁, ht₁, hr₁⟩ := h _ _ _ _ hst hstep
    obtain ⟨t', hrun', hr'⟩ := ih hr₁
    exact ⟨t', .cons ht₁ hrun', hr'⟩

structure Alike (step : σ → ι → σ → Prop) (shows : σ → α) (s t : σ) : Prop where
  forth : ∀ is s', Runs step s is s' → ∃ t', Runs step t is t' ∧ shows t' = shows s'
  back : ∀ is t', Runs step t is t' → ∃ s', Runs step s is s' ∧ shows s' = shows t'

theorem Simulates.alike (h : Simulates step R) (hsymm : ∀ s t, R s t → R t s)
    (hshows : ∀ s t, R s t → shows t = shows s) (hst : R s t) : Alike step shows s t := by
  constructor
  · intro is s' hrun
    obtain ⟨t', hrun', hr⟩ := h.runs hst hrun
    exact ⟨t', hrun', hshows _ _ hr⟩
  · intro is t' hrun
    obtain ⟨s', hrun', hr⟩ := h.runs (hsymm _ _ hst) hrun
    exact ⟨s', hrun', hshows _ _ hr⟩

end TorchComms.Foundation
