import Mathlib.Data.List.Basic
import Mathlib.Data.Nat.Basic

/-! # A loop with a fault and a bound

The body says whether to go on. A loop whose measure falls in every round needs no more
rounds than the measure counts, so the bound is never met.
-/
namespace TorchComms.Foundation

variable {σ ε : Type*}

/-- Repeat the body while it returns `true`, at most `fuel` times. -/
def loop (diverged : ε) (body : σ → Except ε (Bool × σ)) : ℕ → σ → Except ε σ
  | 0, _ => .error diverged
  | fuel + 1, s =>
    match body s with
    | .error e => .error e
    | .ok (true, s') => loop diverged body fuel s'
    | .ok (false, s') => .ok s'

variable {body : σ → Except ε (Bool × σ)} {diverged : ε} {fuel : ℕ}

/-- The loop rule: a round either ends the loop with `Post` or keeps `Inv` and lowers the
measure. -/
theorem loop_invariant (Inv Post : σ → Prop) (measure : σ → ℕ)
    (hbody : ∀ s, Inv s → ∃ c s', body s = .ok (c, s') ∧
      (c = true → Inv s' ∧ measure s' < measure s) ∧ (c = false → Post s'))
    {s : σ} (hinit : Inv s) (hfuel : measure s < fuel) :
    ∃ s', loop diverged body fuel s = .ok s' ∧ Post s' := by
  induction fuel generalizing s with
  | zero => exact absurd hfuel (Nat.not_lt_zero _)
  | succ fuel ih =>
    rcases hbody s hinit with ⟨c, s', hs', hgo, hstop⟩
    cases c with
    | true =>
      rcases hgo rfl with ⟨hinv, hlt⟩
      rcases ih hinv (Nat.lt_of_lt_of_le hlt (Nat.le_of_lt_succ hfuel)) with ⟨t, ht, hpost⟩
      refine ⟨t, ?_, hpost⟩
      simpa only [loop, hs'] using ht
    | false =>
      refine ⟨s', ?_, hstop rfl⟩
      simp only [loop, hs']

/-- Where a loop ends well, so did its last round, in a state that the other rounds lead to. -/
theorem loop_post_of_ok (Inv Post : σ → Prop)
    (hgo : ∀ s s', body s = .ok (true, s') → Inv s → Inv s')
    (hstop : ∀ s s', body s = .ok (false, s') → Inv s → Post s') {s s' : σ}
    (hinit : Inv s) (hok : loop diverged body fuel s = .ok s') : Post s' := by
  induction fuel generalizing s with
  | zero => cases hok
  | succ fuel ih =>
    rw [loop] at hok
    split at hok
    · cases hok
    · rename_i t ht
      exact ih (hgo s t ht hinit) hok
    · rename_i t ht
      cases hok
      exact hstop s _ ht hinit

/-- What every successful round keeps holds where the loop ends. -/
theorem loop_of_ok (Inv : σ → Prop)
    (hbody : ∀ s c s', body s = .ok (c, s') → Inv s → Inv s') {s s' : σ}
    (hinit : Inv s) (hok : loop diverged body fuel s = .ok s') : Inv s' :=
  loop_post_of_ok Inv Inv (fun s s' => hbody s true s') (fun s s' => hbody s false s') hinit hok

section Lists

variable {α β : Type*} {xs : List α} {f : α → Except ε β}

/-- The rule of a loop over a list: each round takes the invariant one item further. -/
theorem foldlM_invariant (Inv : ℕ → σ → Prop) {step : σ → α → Except ε σ}
    (hstep : ∀ i s x, xs[i]? = some x → Inv i s → ∃ s', step s x = .ok s' ∧ Inv (i + 1) s')
    {s : σ} (hinit : Inv 0 s) : ∃ s', xs.foldlM step s = .ok s' ∧ Inv xs.length s' := by
  induction xs generalizing s Inv with
  | nil => exact ⟨s, rfl, hinit⟩
  | cons x xs ih =>
    rcases hstep 0 s x rfl hinit with ⟨t, ht, hinv⟩
    rcases ih (fun i => Inv (i + 1)) (fun i s y hy => hstep (i + 1) s y hy) hinv with
      ⟨s', hs', hlast⟩
    refine ⟨s', ?_, hlast⟩
    rw [List.foldlM_cons, ht]
    exact hs'

/-- What every successful round keeps holds where the loop succeeds. -/
theorem foldlM_of_ok (Inv : σ → Prop) {step : σ → α → Except ε σ}
    (hstep : ∀ s x s', step s x = .ok s' → Inv s → Inv s') {s s' : σ} (hinit : Inv s)
    (hok : xs.foldlM step s = .ok s') : Inv s' := by
  induction xs generalizing s with
  | nil =>
    cases hok
    exact hinit
  | cons x xs ih =>
    rw [List.foldlM_cons] at hok
    cases hx : step s x with
    | error e =>
      rw [hx] at hok
      cases hok
    | ok t =>
      rw [hx] at hok
      exact ih (hstep s x t hx hinit) hok

theorem foldlM_error {step : σ → α → Except ε σ} {x : α} (hx : x ∈ xs)
    (hfail : ∀ s, ∃ e, step s x = .error e) (s : σ) : ∃ e, xs.foldlM step s = .error e := by
  induction xs generalizing s with
  | nil => cases hx
  | cons y xs ih =>
    rw [List.foldlM_cons]
    cases hy : step s y with
    | error e => exact ⟨e, rfl⟩
    | ok s' =>
      rcases List.mem_cons.mp hx with rfl | hx
      · rcases hfail s with ⟨e, he⟩
        rw [he] at hy
        cases hy
      · exact ih hx s'

theorem mapM_ok {g : α → β} (h : ∀ x ∈ xs, f x = .ok (g x)) : xs.mapM f = .ok (xs.map g) := by
  induction xs with
  | nil => rfl
  | cons x xs ih =>
    rw [List.mapM_cons, h x List.mem_cons_self, ih fun y hy => h y (List.mem_cons_of_mem _ hy)]
    rfl

variable {ys : List β} {e : ε}

theorem getElem?_of_mapM (h : xs.mapM f = .ok ys) (i : ℕ) :
    (xs[i]? = none ∧ ys[i]? = none) ∨
      ∃ x y, xs[i]? = some x ∧ ys[i]? = some y ∧ f x = .ok y := by
  induction xs generalizing ys i with
  | nil =>
    cases h
    exact Or.inl ⟨rfl, rfl⟩
  | cons x xs ih =>
    rw [List.mapM_cons] at h
    cases hx : f x with
    | error e =>
      rw [hx] at h
      cases h
    | ok y =>
      cases hxs : xs.mapM f with
      | error e =>
        rw [hx, hxs] at h
        cases h
      | ok ys' =>
        rw [hx, hxs] at h
        cases h
        cases i with
        | zero => exact Or.inr ⟨x, y, rfl, rfl, hx⟩
        | succ i => exact ih hxs i

theorem length_of_mapM (h : xs.mapM f = .ok ys) : ys.length = xs.length := by
  have hget := getElem?_of_mapM h
  apply Nat.le_antisymm
  · rcases hget xs.length with ⟨_, hnone⟩ | ⟨x, y, hx, _, _⟩
    · exact List.getElem?_eq_none_iff.mp hnone
    · rw [List.getElem?_eq_none (Nat.le_refl _)] at hx
      cases hx
  · rcases hget ys.length with ⟨hnone, _⟩ | ⟨x, y, _, hy, _⟩
    · exact List.getElem?_eq_none_iff.mp hnone
    · rw [List.getElem?_eq_none (Nat.le_refl _)] at hy
      cases hy

/-- The first fault ends the run. -/
theorem mapM_error_iff : xs.mapM f = .error e ↔
    ∃ good bad rest, xs = good ++ bad :: rest ∧ (∀ x ∈ good, ∃ y, f x = .ok y) ∧
      f bad = .error e := by
  constructor
  · intro h
    induction xs with
    | nil => cases h
    | cons x xs ih =>
      rw [List.mapM_cons] at h
      cases hx : f x with
      | error e' =>
        rw [hx] at h
        cases h
        exact ⟨[], x, xs, rfl, nofun, hx⟩
      | ok y =>
        cases hxs : xs.mapM f with
        | error e' =>
          rw [hx, hxs] at h
          cases h
          rcases ih hxs with ⟨good, bad, rest, rfl, hgood, hbad⟩
          exact ⟨x :: good, bad, rest, rfl, List.forall_mem_cons.mpr ⟨⟨y, hx⟩, hgood⟩, hbad⟩
        | ok ys =>
          rw [hx, hxs] at h
          cases h
  · rintro ⟨good, bad, rest, rfl, hgood, hbad⟩
    induction good with
    | nil =>
      rw [List.nil_append, List.mapM_cons, hbad]
      rfl
    | cons x good ih =>
      rcases hgood x List.mem_cons_self with ⟨y, hy⟩
      rw [List.cons_append, List.mapM_cons, hy, ih fun z hz => hgood z (List.mem_cons_of_mem _ hz)]
      rfl

theorem exists_of_mapM_error (h : xs.mapM f = .error e) : ∃ x ∈ xs, f x = .error e := by
  rcases mapM_error_iff.mp h with ⟨good, bad, rest, rfl, -, hbad⟩
  exact ⟨bad, List.mem_append_right _ List.mem_cons_self, hbad⟩

theorem exists_mapM_ok_iff : (∃ ys, xs.mapM f = .ok ys) ↔ ∀ x ∈ xs, ∃ y, f x = .ok y := by
  constructor
  · rintro ⟨ys, hys⟩ x hx
    rcases List.getElem?_of_mem hx with ⟨i, hi⟩
    rcases getElem?_of_mapM hys i with ⟨hnone, -⟩ | ⟨x', y, hx', -, hy⟩
    · rw [hi] at hnone
      cases hnone
    · rw [hi] at hx'
      cases hx'
      exact ⟨y, hy⟩
  · intro hall
    cases hxs : xs.mapM f with
    | ok ys => exact ⟨ys, rfl⟩
    | error e =>
      rcases exists_of_mapM_error hxs with ⟨x, hx, he⟩
      rcases hall x hx with ⟨y, hy⟩
      rw [hy] at he
      cases he

theorem getElem?_concat_cases {x y : α} {j : ℕ} (h : (xs ++ [x])[j]? = some y) :
    xs[j]? = some y ∨ j = xs.length ∧ y = x := by
  rcases Nat.lt_or_ge j xs.length with hlt | hge
  · rw [List.getElem?_append_left hlt] at h
    exact Or.inl h
  · rw [List.getElem?_append_right hge, List.getElem?_singleton] at h
    by_cases hzero : j - xs.length = 0
    · rw [if_pos hzero, Option.some.injEq] at h
      exact Or.inr ⟨by omega, h.symm⟩
    · rw [if_neg hzero] at h
      cases h

end Lists

end TorchComms.Foundation

/-! ## Loops that the environment answers

Each turn of the loop makes a call, and what the call returns decides whether the loop goes on. The
answers are any sequence, so a loop need not end.
-/
namespace TorchComms.Foundation

variable {σ α ρ : Type*}

inductive Turn (σ ρ : Type*)
  | goOn (s : σ)
  | stop (r : ρ)

variable {step : σ → α → Turn σ ρ} {s t u : σ} {answers : ℕ → α} {r : ρ} {n : ℕ}

/-- The loop is in state `t` after `n` turns. -/
inductive Reaches (step : σ → α → Turn σ ρ) (s : σ) (answers : ℕ → α) : σ → ℕ → Prop
  | start : Reaches step s answers s 0
  | next {t u : σ} {n : ℕ} (h : Reaches step s answers t n)
      (hstep : step t (answers n) = .goOn u) : Reaches step s answers u (n + 1)

/-- The loop stops with `r` at the answer of number `n`. -/
def Returns (step : σ → α → Turn σ ρ) (s : σ) (answers : ℕ → α) (r : ρ) (n : ℕ) : Prop :=
  ∃ t, Reaches step s answers t n ∧ step t (answers n) = .stop r

theorem Reaches.invariant (Inv : ℕ → σ → Prop) (h : Reaches step s answers t n) (hinit : Inv 0 s)
    (hstep : ∀ i t u, Inv i t → step t (answers i) = .goOn u → Inv (i + 1) u) : Inv n t := by
  induction h with
  | start => exact hinit
  | next _ hnext ih =>
    apply hstep _ _ _ ih hnext

theorem exists_reaches (h : ∀ r n, ¬ Returns step s answers r n) (n : ℕ) :
    ∃ t, Reaches step s answers t n := by
  induction n with
  | zero => exact ⟨s, .start⟩
  | succ n ih =>
    obtain ⟨t, ht⟩ := ih
    cases hstep : step t (answers n) with
    | goOn u => exact ⟨u, ht.next hstep⟩
    | stop r => exact absurd ⟨t, ht, hstep⟩ (h r n)

/-- The rule of termination: no state is left for the turn of number `n` to go on from. -/
theorem exists_returns (step : σ → α → Turn σ ρ) (s : σ) (answers : ℕ → α) (n : ℕ)
    (h : ∀ t u, Reaches step s answers t n → step t (answers n) ≠ .goOn u) :
    ∃ r m, Returns step s answers r m := by
  by_contra hno
  obtain ⟨t, ht⟩ := exists_reaches (fun r m hr => hno ⟨r, m, hr⟩) n
  cases hstep : step t (answers n) with
  | goOn u => exact h t u ht hstep
  | stop r => exact hno ⟨r, n, t, ht, hstep⟩

end TorchComms.Foundation
