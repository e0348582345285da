import TorchComms.AllToAllvDedup.FwdRecvSync

/-! # Which step a worker is at

Worker 0 of a group takes the step numbers, one for each chunk of the group and in the order of the
chunks. The other workers of the group get the same numbers in the same order, at most two behind.
-/
namespace TorchComms.AllToAllvDedup
open Function

/-- The step number that a worker has obtained and not posted. -/
def Worker.held : Worker → Option ℕ
  | .next => none
  | .hand step _ => some step
  | .waitReady step => some step
  | .copy step _ => some step

/-- How many step numbers a worker holds. -/
def Worker.holds : Worker → ℕ
  | .next => 0
  | _ => 1

/-- How many of the step numbers that worker 0 holds it has given to another worker. -/
def Worker.offers (w : ℕ) : Worker → ℕ
  | .next => 0
  | .hand _ v => if v ≤ w then 0 else 1
  | _ => 1

namespace FwdState

variable {β : Type} {c : FwdConfig} {chunk : ℕ → ℕ → Cell → β} {s t : FwdState β} {g w i j : ℕ}

/-- How many step numbers a worker has obtained. -/
def obtained (s : FwdState β) (g w : ℕ) : ℕ := s.posts (g, w) + (s.worker (g, w)).holds

/-- The same with the number that waits for the worker. -/
def given (s : FwdState β) (g w : ℕ) : ℕ :=
  s.obtained g w + if s.remRecvStepsInGroup (g, w) = none then 0 else 1

/-- How many step numbers worker 0 has given to another worker. -/
def offered (s : FwdState β) (g w : ℕ) : ℕ := s.posts (g, 0) + (s.worker (g, 0)).offers w

/-- The step numbers and the chunks that they were taken for. -/
structure Tickets (c : FwdConfig) (s : FwdState β) : Prop where
  bound : ∀ j < s.remRecvSteps, (s.takenBy j).1 < c.numGroups ∧
    (s.takenBy j).2 < c.numFwds (s.takenBy j).1 ∧
    (s.takenBy j).2 < s.obtained (s.takenBy j).1 0
  taken : ∀ g < c.numGroups, ∀ k < s.obtained g 0, ∃ j < s.remRecvSteps, s.takenBy j = (g, k)
  order : ∀ i j, i < j → j < s.remRecvSteps → (s.takenBy i).1 = (s.takenBy j).1 →
    (s.takenBy i).2 < (s.takenBy j).2
  held : ∀ g < c.numGroups, ∀ w < c.numWorkers, ∀ i, (s.worker (g, w)).held = some i →
    i < s.remRecvSteps ∧ s.takenBy i = (g, s.posts (g, w))
  handed : ∀ g < c.numGroups, ∀ w, 0 < w → w < c.numWorkers → ∀ i,
    s.remRecvStepsInGroup (g, w) = some i → i < s.remRecvSteps ∧ s.takenBy i = (g, s.obtained g w)
  given : ∀ g < c.numGroups, ∀ w, 0 < w → w < c.numWorkers → s.given g w = s.offered g w
  loop : ∀ g < c.numGroups, ∀ w < c.numWorkers, ∀ i v, s.worker (g, w) = .hand i v → w = 0 ∧ 1 ≤ v

@[simp] theorem setWorker_self (x : Worker) : (s.setWorker g w x).worker (g, w) = x := update_self ..

@[simp] theorem setWorker_of_ne {x : Worker} {p : ℕ × ℕ} (h : p ≠ (g, w)) :
    (s.setWorker g w x).worker p = s.worker p := update_of_ne h ..

theorem obtained_congr (hposts : t.posts (g, w) = s.posts (g, w))
    (hholds : (t.worker (g, w)).holds = (s.worker (g, w)).holds) : t.obtained g w = s.obtained g w := by
  unfold obtained
  rw [hposts, hholds]

theorem posts_le_obtained : s.posts (g, w) ≤ s.obtained g w := Nat.le_add_right _ _

theorem offered_congr (hposts : t.posts (g, 0) = s.posts (g, 0))
    (hoffers : (t.worker (g, 0)).offers w = (s.worker (g, 0)).offers w) :
    t.offered g w = s.offered g w := by
  unfold offered
  rw [hposts, hoffers]

namespace Tickets

theorem initial (tmpRecvBuff : ℕ × Cell → β) : Tickets c (FwdState.initial c tmpRecvBuff) := by
  constructor
  · exact fun j hj => absurd hj (Nat.not_lt_zero j)
  · exact fun g _ k hk => absurd hk (Nat.not_lt_zero k)
  · exact fun i j _ hj => absurd hj (Nat.not_lt_zero j)
  · exact fun g _ w _ i h => nomatch h
  · exact fun g _ w _ _ i h => nomatch h
  · exact fun g _ w _ _ => rfl
  · exact fun g _ w _ i v h => nomatch h

section

variable (h : Tickets c s)
include h

theorem injective (hi : i < s.remRecvSteps) (hj : j < s.remRecvSteps)
    (heq : s.takenBy i = s.takenBy j) : i = j := by
  rcases Nat.lt_trichotomy i j with hlt | rfl | hlt
  · have := h.order i j hlt hj (by rw [heq])
    rw [heq] at this
    exact absurd this (Nat.lt_irrefl _)
  · rfl
  · have := h.order j i hlt hi (by rw [heq])
    rw [heq] at this
    exact absurd this (Nat.lt_irrefl _)

theorem lt_of_lt (hj : j < s.remRecvSteps)
    (hgroup : (s.takenBy i).1 = (s.takenBy j).1) (hlt : (s.takenBy i).2 < (s.takenBy j).2)
    (hi : i < s.remRecvSteps) : i < j := by
  rcases Nat.lt_trichotomy i j with h1 | rfl | h1
  · exact h1
  · exact absurd hlt (Nat.lt_irrefl _)
  · exact absurd (h.order j i h1 hi hgroup.symm) (by omega)

theorem posts_le_zero (hg : g < c.numGroups) (hw : w < c.numWorkers)
    (hnext : s.worker (g, 0) = .next) : s.posts (g, w) ≤ s.posts (g, 0) := by
  rcases Nat.eq_zero_or_pos w with rfl | hpos
  · exact Nat.le_refl _
  · have hgiven := h.given g hg w hpos hw
    unfold FwdState.given offered obtained at hgiven
    rw [hnext, Worker.offers] at hgiven
    omega

/-- A change that no number depends on. -/
theorem congr (hsteps : t.remRecvSteps = s.remRecvSteps)
    (htaken : t.takenBy = s.takenBy) (hgroup : t.remRecvStepsInGroup = s.remRecvStepsInGroup)
    (hobtained : ∀ g w, t.obtained g w = s.obtained g w)
    (hoffered : ∀ g < c.numGroups, ∀ w < c.numWorkers, t.offered g w = s.offered g w)
    (hheld : ∀ g w i, (t.worker (g, w)).held = some i →
      (s.worker (g, w)).held = some i ∧ t.posts (g, w) = s.posts (g, w))
    (hloop : ∀ g w i v, t.worker (g, w) = .hand i v → s.worker (g, w) = .hand i v) :
    Tickets c t := by
  constructor
  · simpa only [hsteps, htaken, hobtained] using h.bound
  · simpa only [hsteps, htaken, hobtained] using h.taken
  · simpa only [hsteps, htaken] using h.order
  · intro g hg w hw i hi
    obtain ⟨hold, hposts⟩ := hheld g w i hi
    rw [hsteps, htaken, hposts]
    exact h.held g hg w hw i hold
  · simpa only [hsteps, htaken, hgroup, hobtained] using h.handed
  · intro g hg w hpos hw
    have heq := h.given g hg w hpos hw
    unfold FwdState.given at heq ⊢
    rw [hgroup, hobtained, hoffered g hg w hw]
    exact heq
  · exact fun g hg w hw i v hv => h.loop g hg w hw i v (hloop g w i v hv)

theorem atomicAdd (hg : g < c.numGroups) (hnext : s.worker (g, 0) = .next)
    (hfwd : s.posts (g, 0) < c.numFwds g) :
    Tickets c { s.setWorker g 0 (.hand s.remRecvSteps 1) with
      remRecvSteps := s.remRecvSteps + 1
      takenBy := update s.takenBy s.remRecvSteps (g, s.posts (g, 0)) } := by
  set t : FwdState β := { s.setWorker g 0 (.hand s.remRecvSteps 1) with
    remRecvSteps := s.remRecvSteps + 1
    takenBy := update s.takenBy s.remRecvSteps (g, s.posts (g, 0)) } with ht
  have hself : t.worker (g, 0) = .hand s.remRecvSteps 1 := setWorker_self _
  have hother : ∀ p, p ≠ (g, 0) → t.worker p = s.worker p := fun p hp => setWorker_of_ne hp
  have hnew : t.takenBy s.remRecvSteps = (g, s.posts (g, 0)) := update_self ..
  have hold : ∀ j < s.remRecvSteps, t.takenBy j = s.takenBy j :=
    fun j hj => update_of_ne (by omega) ..
  have hzero : s.obtained g 0 = s.posts (g, 0) := by
    unfold obtained
    rw [hnext]
    rfl
  have hobtained : ∀ p, p ≠ (g, 0) → t.obtained p.1 p.2 = s.obtained p.1 p.2 := by
    intro p hp
    exact obtained_congr (t := t) rfl (by rw [hother p hp])
  have hobtainedZero : t.obtained g 0 = s.obtained g 0 + 1 := by
    rw [hzero]
    unfold obtained
    rw [hself]
    rfl
  have hmono : ∀ i, s.obtained i 0 ≤ t.obtained i 0 := by
    intro i
    by_cases hi : i = g
    · rw [hi, hobtainedZero]
      exact Nat.le_succ _
    · exact (hobtained (i, 0) (by simp [hi])).ge
  constructor
  · intro j hj
    rcases Nat.lt_succ_iff_lt_or_eq.mp hj with hlt | rfl
    · rw [hold j hlt]
      obtain ⟨h1, h2, h3⟩ := h.bound j hlt
      exact ⟨h1, h2, h3.trans_le (hmono _)⟩
    · rw [hnew]
      refine ⟨hg, hfwd, ?_⟩
      simp only
      omega
  · intro i hi k hk
    by_cases heq : i = g
    · subst heq
      rcases Nat.lt_succ_iff_lt_or_eq.mp (hobtainedZero ▸ hk) with hlt | rfl
      · obtain ⟨j, hj, htaken⟩ := h.taken i hi k hlt
        exact ⟨j, Nat.lt_succ_of_lt hj, (hold j hj).trans htaken⟩
      · exact ⟨s.remRecvSteps, Nat.lt_succ_self _, hnew.trans (by rw [hzero])⟩
    · rw [hobtained (i, 0) (by simp [heq])] at hk
      obtain ⟨j, hj, htaken⟩ := h.taken i hi k hk
      exact ⟨j, Nat.lt_succ_of_lt hj, (hold j hj).trans htaken⟩
  · intro i j hij hj hgroup
    have hi : i < s.remRecvSteps := by
      have : j < s.remRecvSteps + 1 := hj
      omega
    rw [hold i hi] at hgroup ⊢
    rcases Nat.lt_succ_iff_lt_or_eq.mp hj with hlt | rfl
    · rw [hold j hlt] at hgroup ⊢
      exact h.order i j hij hlt hgroup
    · rw [hnew] at hgroup ⊢
      obtain ⟨_, _, h3⟩ := h.bound i hi
      simp only at hgroup ⊢
      rw [hgroup] at h3
      omega
  · intro i hi w hw j hj
    by_cases heq : (i, w) = (g, 0)
    · cases heq
      rw [hself] at hj
      cases hj
      exact ⟨Nat.lt_succ_self _, hnew⟩
    · rw [hother _ heq] at hj
      obtain ⟨h1, h2⟩ := h.held i hi w hw j hj
      exact ⟨Nat.lt_succ_of_lt h1, (hold j h1).trans h2⟩
  · intro i hi w hpos hw j hj
    obtain ⟨h1, h2⟩ := h.handed i hi w hpos hw j hj
    have hne : (i, w) ≠ (g, 0) := by
      intro heq
      cases heq
      exact Nat.lt_irrefl _ hpos
    rw [hobtained (i, w) hne]
    exact ⟨Nat.lt_succ_of_lt h1, (hold j h1).trans h2⟩
  · intro i hi w hpos hw
    have hne : (i, w) ≠ (g, 0) := by
      intro heq
      cases heq
      exact Nat.lt_irrefl _ hpos
    have heq := h.given i hi w hpos hw
    unfold FwdState.given at heq ⊢
    rw [hobtained (i, w) hne]
    refine heq.trans ?_
    unfold offered
    by_cases hig : i = g
    · rw [hig, hself, hnext, Worker.offers, Worker.offers]
      exact (if_pos (c := 1 ≤ w) hpos).symm ▸ rfl
    · rw [hother (i, 0) (by simp [hig])]
      rfl
  · intro i hi w hw j v hv
    by_cases heq : (i, w) = (g, 0)
    · cases heq
      rw [hself] at hv
      cases hv
      exact ⟨rfl, Nat.le_refl _⟩
    · rw [hother _ heq] at hv
      exact h.loop i hi w hw j v hv

theorem atomicCAS {step : ℕ} (hg : g < c.numGroups)
    (hhand : s.worker (g, 0) = .hand step w) (hw : w < c.numWorkers)
    (hunset : s.remRecvStepsInGroup (g, w) = none) :
    Tickets c { s.setWorker g 0 (.hand step (w + 1)) with
      remRecvStepsInGroup := update s.remRecvStepsInGroup (g, w) (some step) } := by
  set t : FwdState β := { s.setWorker g 0 (.hand step (w + 1)) with
    remRecvStepsInGroup := update s.remRecvStepsInGroup (g, w) (some step) }
  have hpos : 0 < w := (h.loop g hg 0 c.numWorkers_pos step w hhand).2
  have hself : t.worker (g, 0) = .hand step (w + 1) := setWorker_self _
  have hother : ∀ p, p ≠ (g, 0) → t.worker p = s.worker p := fun p hp => setWorker_of_ne hp
  have hobtained : ∀ i v, t.obtained i v = s.obtained i v := by
    intro i v
    apply obtained_congr (t := t) (s := s) rfl
    by_cases heq : (i, v) = (g, 0)
    · rw [heq, hself, hhand]
      rfl
    · rw [hother _ heq]
  have hheld := h.held g hg 0 c.numWorkers_pos step (by rw [hhand]; rfl)
  have hgiven := h.given g hg w hpos hw
  unfold FwdState.given offered at hgiven
  rw [hunset, if_pos rfl, hhand, Worker.offers, if_pos (Nat.le_refl _), Nat.add_zero,
    Nat.add_zero] at hgiven
  constructor
  · intro j hj
    rw [hobtained]
    exact h.bound j hj
  · intro i hi k hk
    rw [hobtained] at hk
    exact h.taken i hi k hk
  · exact h.order
  · intro i hi v hv j hj
    by_cases heq : (i, v) = (g, 0)
    · cases heq
      rw [hself] at hj
      cases hj
      exact hheld
    · rw [hother _ heq] at hj
      exact h.held i hi v hv j hj
  · intro i hi v hvpos hv j hj
    rw [hobtained]
    by_cases heq : (i, v) = (g, w)
    · cases heq
      have hset : t.remRecvStepsInGroup (g, w) = some step := update_self ..
      rw [hset] at hj
      cases hj
      rw [hgiven]
      exact hheld
    · exact h.handed i hi v hvpos hv j ((update_of_ne heq ..).symm.trans hj)
  · intro i hi v hvpos hv
    have hbefore := h.given i hi v hvpos hv
    unfold FwdState.given at hbefore ⊢
    rw [hobtained]
    by_cases hig : i = g
    · subst hig
      have hoffered : t.offered i v = s.posts (i, 0) + if w + 1 ≤ v then 0 else 1 := by
        unfold offered
        rw [hself]
        rfl
      rw [hoffered]
      by_cases hvw : v = w
      · subst hvw
        have hset : t.remRecvStepsInGroup (i, v) = some step := update_self ..
        rw [hset, if_neg nofun, if_neg (by omega)]
        omega
      · have hsame : t.remRecvStepsInGroup (i, v) = s.remRecvStepsInGroup (i, v) :=
          update_of_ne (by simp [hvw]) ..
        rw [hsame, hbefore]
        unfold offered
        rw [hhand, Worker.offers]
        congr 1
        by_cases hle : w ≤ v
        · rw [if_pos hle, if_pos (by omega)]
        · rw [if_neg hle, if_neg (by omega)]
    · have hsame : t.remRecvStepsInGroup (i, v) = s.remRecvStepsInGroup (i, v) :=
        update_of_ne (by simp [hig]) ..
      rw [hsame, hbefore]
      apply Eq.symm
      apply offered_congr (t := t) (s := s) rfl
      rw [hother (i, 0) (by simp [hig])]
  · intro i hi v hv j x hx
    by_cases heq : (i, v) = (g, 0)
    · cases heq
      rw [hself] at hx
      cases hx
      exact ⟨rfl, by omega⟩
    · rw [hother _ heq] at hx
      exact h.loop i hi v hv j x hx

theorem atomicExch {step : ℕ} (hg : g < c.numGroups) (hpos : 0 < w)
    (hw : w < c.numWorkers) (hnext : s.worker (g, w) = .next)
    (hset : s.remRecvStepsInGroup (g, w) = some step) :
    Tickets c { s.setWorker g w (.waitReady step) with
      remRecvStepsInGroup := update s.remRecvStepsInGroup (g, w) none } := by
  set t : FwdState β := { s.setWorker g w (.waitReady step) with
    remRecvStepsInGroup := update s.remRecvStepsInGroup (g, w) none }
  have hself : t.worker (g, w) = .waitReady step := setWorker_self _
  have hother : ∀ p, p ≠ (g, w) → t.worker p = s.worker p := fun p hp => setWorker_of_ne hp
  have hzero : ∀ i, (i, 0) ≠ (g, w) := by
    rintro i heq
    cases heq
    exact Nat.lt_irrefl _ hpos
  have hobtained : ∀ p, p ≠ (g, w) → t.obtained p.1 p.2 = s.obtained p.1 p.2 := by
    intro p hp
    exact obtained_congr (t := t) rfl (by rw [hother p hp])
  have hobtainedZero : ∀ i, t.obtained i 0 = s.obtained i 0 := fun i => hobtained (i, 0) (hzero i)
  have hbefore : s.obtained g w = s.posts (g, w) := by
    unfold obtained
    rw [hnext]
    rfl
  have hafter : t.obtained g w = s.posts (g, w) + 1 := by
    unfold obtained
    rw [hself]
    rfl
  have hhanded := h.handed g hg w hpos hw step hset
  rw [hbefore] at hhanded
  constructor
  · intro j hj
    rw [hobtainedZero]
    exact h.bound j hj
  · intro i hi k hk
    rw [hobtainedZero] at hk
    exact h.taken i hi k hk
  · exact h.order
  · intro i hi v hv j hj
    by_cases heq : (i, v) = (g, w)
    · cases heq
      rw [hself] at hj
      cases hj
      exact hhanded
    · rw [hother _ heq] at hj
      exact h.held i hi v hv j hj
  · intro i hi v hvpos hv j hj
    by_cases heq : (i, v) = (g, w)
    · cases heq
      have hnone : t.remRecvStepsInGroup (g, w) = none := update_self ..
      rw [hnone] at hj
      cases hj
    · rw [hobtained _ heq]
      exact h.handed i hi v hvpos hv j ((update_of_ne heq ..).symm.trans hj)
  · intro i hi v hvpos hv
    have hgiven := h.given i hi v hvpos hv
    unfold FwdState.given at hgiven ⊢
    have hoffered : t.offered i v = s.offered i v :=
      offered_congr (t := t) rfl (by rw [hother _ (hzero i)])
    rw [hoffered, ← hgiven]
    by_cases heq : (i, v) = (g, w)
    · cases heq
      have hnone : t.remRecvStepsInGroup (g, w) = none := update_self ..
      rw [hnone, hset, hafter, hbefore]
      rfl
    · have hsame : t.remRecvStepsInGroup (i, v) = s.remRecvStepsInGroup (i, v) :=
        update_of_ne heq ..
      rw [hobtained _ heq, hsame]
  · intro i hi v hv j x hx
    by_cases heq : (i, v) = (g, w)
    · cases heq
      rw [hself] at hx
      cases hx
    · rw [hother _ heq] at hx
      exact h.loop i hi v hv j x hx

theorem setWorker {x : Worker} (hheld : x.held = (s.worker (g, w)).held)
    (hholds : x.holds = (s.worker (g, w)).holds)
    (hoffers : w = 0 → ∀ v < c.numWorkers, x.offers v = (s.worker (g, 0)).offers v)
    (hloop : ∀ i v, x ≠ .hand i v) : Tickets c (s.setWorker g w x) := by
  have hworker : ∀ p, p ≠ (g, w) → (s.setWorker g w x).worker p = s.worker p :=
    fun p hp => setWorker_of_ne hp
  apply h.congr (t := s.setWorker g w x) rfl rfl rfl
  · intro i v
    apply obtained_congr (t := s.setWorker g w x) (s := s) rfl
    by_cases heq : (i, v) = (g, w)
    · cases heq
      rw [setWorker_self, hholds]
    · rw [hworker _ heq]
  · intro i _ v hv
    apply offered_congr (t := s.setWorker g w x) (s := s) rfl
    by_cases heq : (i, 0) = (g, w)
    · cases heq
      rw [setWorker_self, hoffers rfl v hv]
    · rw [hworker _ heq]
  · intro i v j hj
    constructor
    · by_cases heq : (i, v) = (g, w)
      · cases heq
        rw [setWorker_self, hheld] at hj
        exact hj
      · rw [hworker _ heq] at hj
        exact hj
    · rfl
  · intro i v j y hy
    by_cases heq : (i, v) = (g, w)
    · cases heq
      rw [setWorker_self] at hy
      exact absurd hy (hloop j y)
    · rw [hworker _ heq] at hy
      exact hy

theorem post {step : ℕ} {flags : ℕ × ℕ → Status} (hcopy : s.worker (g, w) = .copy step []) :
    Tickets c { s.setWorker g w .next with
      posts := update s.posts (g, w) (s.posts (g, w) + 1)
      flags := flags } := by
  set t : FwdState β := { s.setWorker g w .next with
    posts := update s.posts (g, w) (s.posts (g, w) + 1)
    flags := flags }
  have hself : t.worker (g, w) = .next := setWorker_self _
  have hposts : t.posts (g, w) = s.posts (g, w) + 1 := update_self ..
  have hother : ∀ p, p ≠ (g, w) → t.worker p = s.worker p := fun p hp => setWorker_of_ne hp
  have hotherPosts : ∀ p, p ≠ (g, w) → t.posts p = s.posts p := fun p hp => update_of_ne hp ..
  apply h.congr (t := t) rfl rfl rfl
  · intro i v
    by_cases heq : (i, v) = (g, w)
    · cases heq
      unfold obtained
      rw [hself, hposts, hcopy]
      rfl
    · exact obtained_congr (t := t) (hotherPosts _ heq) (by rw [hother _ heq])
  · intro i _ v _
    by_cases heq : (i, 0) = (g, w)
    · cases heq
      unfold offered
      rw [hself, hposts, hcopy]
      rfl
    · exact offered_congr (t := t) (hotherPosts _ heq) (by rw [hother _ heq])
  · intro i v j hj
    by_cases heq : (i, v) = (g, w)
    · cases heq
      rw [hself] at hj
      cases hj
    · rw [hother _ heq] at hj
      exact ⟨hj, hotherPosts _ heq⟩
  · intro i v j y hy
    by_cases heq : (i, v) = (g, w)
    · cases heq
      rw [hself] at hy
      cases hy
    · rwa [hother _ heq] at hy

theorem step {a : Act} (hstep : Step c chunk s a t) : Tickets c t := by
  cases hstep with
  | atomicAdd hg hnext hfwd => exact h.atomicAdd hg hnext hfwd
  | atomicCAS hg hhand hw hunset => exact h.atomicCAS hg hhand hw hunset
  | leaveLoop hg hhand hw =>
    apply h.setWorker
    · rw [hhand]
      rfl
    · rw [hhand]
      rfl
    · intro _ v hv
      rw [hhand]
      exact (if_neg (by omega)).symm
    · nofun
  | atomicExch hg hpos hw hnext _ hset => exact h.atomicExch hg hpos hw hnext hset
  | waitReady hg hw hwait =>
    apply h.setWorker
    · rw [hwait]
      rfl
    · rw [hwait]
      rfl
    · rintro rfl v _
      rw [hwait]
      rfl
    · nofun
  | @write g w step e left hg hw hcopy =>
    have hset : Tickets c (s.setWorker g w (.copy step left)) := by
      apply h.setWorker
      · rw [hcopy]
        rfl
      · rw [hcopy]
        rfl
      · rintro rfl v _
        rw [hcopy]
        rfl
      · nofun
    exact ⟨hset.bound, hset.taken, hset.order, hset.held, hset.handed, hset.given, hset.loop⟩
  | post hg hw hcopy => exact h.post hcopy
  | loadFlag => exact ⟨h.bound, h.taken, h.order, h.held, h.handed, h.given, h.loop⟩
  | allPosted => exact ⟨h.bound, h.taken, h.order, h.held, h.handed, h.given, h.loop⟩
  | read => exact ⟨h.bound, h.taken, h.order, h.held, h.handed, h.given, h.loop⟩
  | allRead => exact ⟨h.bound, h.taken, h.order, h.held, h.handed, h.given, h.loop⟩
  | storeFlag => exact ⟨h.bound, h.taken, h.order, h.held, h.handed, h.given, h.loop⟩
  | allUnset => exact ⟨h.bound, h.taken, h.order, h.held, h.handed, h.given, h.loop⟩

end

end Tickets
end FwdState
end TorchComms.AllToAllvDedup
