import Mathlib.Algebra.Order.BigOperators.Group.Finset
import Mathlib.Algebra.Ring.Nat

/-! # Runs of a faulting step function

A component is a state type, a type of operations and a step that may fault.
An operation sequence is admissible when every operation is permitted in the
state it meets; an invariant that every permitted step establishes therefore
holds along every admissible sequence, and no admissible sequence faults.
-/
namespace TorchComms.Foundation

variable {σ ι ε : Type*}

/-- Apply the operations in order, stopping at the first fault. -/
def run (step : σ → ι → Except ε σ) : σ → List ι → Except ε σ
  | s, [] => .ok s
  | s, i :: is =>
    match step s i with
    | .ok s' => run step s' is
    | .error e => .error e

theorem run_cons_ok {step : σ → ι → Except ε σ} {s s' : σ} {i : ι} (is : List ι)
    (h : step s i = .ok s') : run step s (i :: is) = run step s' is := by
  simp [run, h]

theorem run_append_ok {step : σ → ι → Except ε σ} {s s' : σ} {is : List ι} (js : List ι)
    (h : run step s is = .ok s') : run step s (is ++ js) = run step s' js := by
  induction is generalizing s with
  | nil =>
    cases h
    rfl
  | cons i is ih =>
    simp only [List.cons_append, run] at h ⊢
    split at h
    · exact ih h
    · cases h

/-- `allowed past s i` says that operation `i` may be issued in state `s` after the
operations `past`. What follows a fault is unconstrained. -/
def Admissible (step : σ → ι → Except ε σ) (allowed : List ι → σ → ι → Prop) :
    List ι → σ → List ι → Prop
  | _, _, [] => True
  | past, s, i :: is => allowed past s i ∧
      match step s i with
      | .ok s' => Admissible step allowed (past ++ [i]) s' is
      | .error _ => True

instance decidableAdmissible (step : σ → ι → Except ε σ) (allowed : List ι → σ → ι → Prop)
    [∀ past s i, Decidable (allowed past s i)] :
    ∀ (past : List ι) (s : σ) (is : List ι), Decidable (Admissible step allowed past s is)
  | _, _, [] => isTrue trivial
  | past, s, i :: is => by
    unfold Admissible
    refine @instDecidableAnd _ _ _ ?_
    cases step s i with
    | ok s' => exact decidableAdmissible step allowed (past ++ [i]) s' is
    | error e => exact isTrue trivial

section Invariants

variable {step : σ → ι → Except ε σ} {allowed : List ι → σ → ι → Prop} {past : List ι} {s : σ}
  {is js : List ι}

theorem Admissible.take
    (h : Admissible step allowed past s (is ++ js)) : Admissible step allowed past s is := by
  induction is generalizing past s with
  | nil => trivial
  | cons i is ih =>
    obtain ⟨hi, hrest⟩ := h
    refine ⟨hi, ?_⟩
    cases hs : step s i with
    | ok s' =>
      rw [hs] at hrest
      exact ih hrest
    | error e => trivial

theorem Admissible.drop {s s' : σ}
    (h : Admissible step allowed past s (is ++ js)) (hrun : run step s is = .ok s') :
    Admissible step allowed (past ++ is) s' js := by
  induction is generalizing past s with
  | nil =>
    cases hrun
    simpa using h
  | cons i is ih =>
    obtain ⟨_, hrest⟩ := h
    simp only [run] at hrun
    split at hrun
    · rename_i t ht
      rw [ht] at hrest
      simpa using ih hrest hrun
    · cases hrun

theorem admissible_of_forall {P : ι → Prop} (past : List ι) (s : σ) {is : List ι}
    (h : ∀ i ∈ is, P i) : Admissible step (fun _ _ i => P i) past s is := by
  induction is generalizing past s with
  | nil => trivial
  | cons i is ih =>
    refine ⟨h i List.mem_cons_self, ?_⟩
    split
    · exact ih _ _ fun j hj => h j (List.mem_cons_of_mem _ hj)
    · trivial

/-- Every operation of an admissible sequence is one of that sequence. -/
theorem Admissible.and_mem {js : List ι} {is : List ι}
    (h : Admissible step allowed past s is) (hsub : ∀ i ∈ is, i ∈ js) :
    Admissible step (fun past s i => allowed past s i ∧ i ∈ js) past s is := by
  induction is generalizing past s with
  | nil => trivial
  | cons i is ih =>
    obtain ⟨hi, hrest⟩ := h
    refine ⟨⟨hi, hsub i (List.mem_cons_self ..)⟩, ?_⟩
    cases hs : step s i with
    | ok s' =>
      rw [hs] at hrest
      exact ih hrest fun j hj => hsub j (List.mem_cons_of_mem _ hj)
    | error e => trivial

/-- The run lemma: what every permitted step establishes holds after every admissible run,
and such a run never faults. -/
theorem run_invariant_from (Inv : List ι → σ → Prop)
    (hstep : ∀ past s i, Inv past s → allowed past s i →
      ∃ s', step s i = .ok s' ∧ Inv (past ++ [i]) s') (is : List ι) (hinit : Inv past s)
    (hadm : Admissible step allowed past s is) :
    ∃ s', run step s is = .ok s' ∧ Inv (past ++ is) s' := by
  induction is generalizing past s with
  | nil => exact ⟨s, rfl, by simpa using hinit⟩
  | cons i is ih =>
    obtain ⟨hi, hrest⟩ := hadm
    obtain ⟨t, ht, hinv⟩ := hstep past s i hinit hi
    rw [ht] at hrest
    obtain ⟨s', hs', hfinal⟩ := ih hinv hrest
    exact ⟨s', by rw [run_cons_ok is ht, hs'], by simpa using hfinal⟩

theorem run_invariant (Inv : List ι → σ → Prop) (hstep : ∀ past s i, Inv past s → allowed past s i →
      ∃ s', step s i = .ok s' ∧ Inv (past ++ [i]) s')
    (is : List ι) (hinit : Inv [] s) (hadm : Admissible step allowed [] s is) :
    ∃ s', run step s is = .ok s' ∧ Inv is s' := by
  simpa using run_invariant_from Inv hstep is hinit hadm

/-- The last step of an admissible run, with the invariant on both sides of it. -/
theorem run_last_step (Inv : List ι → σ → Prop) (hstep : ∀ past s i, Inv past s → allowed past s i →
      ∃ s', step s i = .ok s' ∧ Inv (past ++ [i]) s') (is : List ι) (i : ι) (hinit : Inv [] s)
    (hadm : Admissible step allowed [] s (is ++ [i])) :
    ∃ t t', run step s is = .ok t ∧ Inv is t ∧ allowed is t i ∧
      step t i = .ok t' ∧ Inv (is ++ [i]) t' := by
  obtain ⟨t, ht, hinv⟩ := run_invariant Inv hstep is hinit hadm.take
  have hlast := hadm.drop ht
  rw [List.nil_append] at hlast
  obtain ⟨t', ht', hinv'⟩ := hstep is t i hinv hlast.1
  exact ⟨t, t', ht, hinv, hlast.1, ht', hinv'⟩

/-- The run lemma where a permitted step may also stop the run, in one of the ways `Stops`. -/
theorem run_invariant_or_stops (Inv : List ι → σ → Prop) (Stops : ε → Prop)
    (hstep : ∀ past s i, Inv past s → allowed past s i →
      (∃ s', step s i = .ok s' ∧ Inv (past ++ [i]) s') ∨ ∃ e, step s i = .error e ∧ Stops e)
    (is : List ι) (hinit : Inv past s) (hadm : Admissible step allowed past s is) :
    (∃ s', run step s is = .ok s' ∧ Inv (past ++ is) s') ∨
      ∃ e, run step s is = .error e ∧ Stops e := by
  induction is generalizing past s with
  | nil => exact Or.inl ⟨s, rfl, by simpa using hinit⟩
  | cons i is ih =>
    obtain ⟨hi, hrest⟩ := hadm
    rcases hstep past s i hinit hi with ⟨t, ht, hinv⟩ | ⟨e, he, hstops⟩
    · rw [ht] at hrest
      rw [run_cons_ok is ht]
      simpa using ih hinv hrest
    · exact Or.inr ⟨e, by rw [run, he], hstops⟩

end Invariants

/-- A step that also replies, with the log of all operations and replies carried along. -/
def logged {ρ : Type*} (step : σ → ι → Except ε (ρ × σ)) (s : σ × List (ι × ρ)) (i : ι) :
    Except ε (σ × List (ι × ρ)) :=
  (step s.1 i).map fun r => (r.2, s.2 ++ [(i, r.1)])

end TorchComms.Foundation

/-! ## Runs that come to an end

A step relation whose steps all raise a bounded measure has no run that goes on for ever. Where a
step is one of finitely many parties, the measure is the work that they have done together.
-/
namespace TorchComms.Foundation

variable {σ : Type*} {Step : σ → σ → Prop}

theorem exists_stop (Inv : σ → Prop) (measure : σ → ℕ) (bound : ℕ)
    (hinv : ∀ s s', Inv s → Step s s' → Inv s')
    (hlt : ∀ s s', Inv s → Step s s' → measure s < measure s')
    (hle : ∀ s, Inv s → measure s ≤ bound) (run : ℕ → σ) (hinit : Inv (run 0)) :
    ∃ k, ¬ Step (run k) (run (k + 1)) := by
  by_contra hnone
  rw [not_exists] at hnone
  simp only [not_not] at hnone
  have hrun : ∀ k, Inv (run k) ∧ k ≤ measure (run k) := by
    intro k
    induction k with
    | zero => exact ⟨hinit, Nat.zero_le _⟩
    | succ k ih =>
      have hstep := hlt _ _ ih.1 (hnone k)
      exact ⟨hinv _ _ ih.1 (hnone k), by omega⟩
  obtain ⟨hlast, hmeasure⟩ := hrun (bound + 1)
  have hbound := hle _ hlast
  omega

/-- A run that can go on until it is done comes to where it is done. -/
theorem exists_done (Inv Done : σ → Prop) (measure : σ → ℕ) (bound : ℕ)
    (hinv : ∀ s s', Inv s → Step s s' → Inv s')
    (hlt : ∀ s s', Inv s → Step s s' → measure s < measure s')
    (hle : ∀ s, Inv s → measure s ≤ bound) (hgo : ∀ s, Inv s → ¬ Done s → ∃ s', Step s s')
    {s : σ} (hinit : Inv s) : ∃ t, Relation.ReflTransGen Step s t ∧ Done t := by
  induction hleft : bound - measure s using Nat.strong_induction_on generalizing s with
  | _ left ih =>
    by_cases hdone : Done s
    · exact ⟨s, .refl, hdone⟩
    · obtain ⟨s', hstep⟩ := hgo s hinit hdone
      have hinv' := hinv s s' hinit hstep
      have hmore := hlt s s' hinit hstep
      have hbound := hle s' hinv'
      obtain ⟨t, hrun, ht⟩ := ih (bound - measure s') (by omega) hinv' rfl
      exact ⟨t, hrun.head hstep, ht⟩

/-- The work done together grows with the work of one, when nobody's falls. -/
theorem sum_work_lt {work work' : ℕ → ℕ} {n r : ℕ} (hr : r < n) (hlt : work r < work' r)
    (hle : ∀ q < n, work q ≤ work' q) :
    ∑ q ∈ Finset.range n, work q < ∑ q ∈ Finset.range n, work' q := by
  apply Finset.sum_lt_sum
  · exact fun q hq => hle q (Finset.mem_range.mp hq)
  · exact ⟨r, Finset.mem_range.mpr hr, hlt⟩

theorem sum_work_le {work : ℕ → ℕ} {n most : ℕ} (hle : ∀ q < n, work q ≤ most) :
    ∑ q ∈ Finset.range n, work q ≤ n * most := by
  have hsum := Finset.sum_le_card_nsmul (Finset.range n) work most
    fun q hq => hle q (Finset.mem_range.mp hq)
  rwa [Finset.card_range] at hsum

end TorchComms.Foundation
