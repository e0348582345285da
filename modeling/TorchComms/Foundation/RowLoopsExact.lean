import TorchComms.Foundation.RowLoops

/-! # Rows visited once

The threads visit every cell once exactly when no index wraps. One that wraps comes back into the
range, where another thread visits, too.
-/
namespace TorchComms.Foundation.Rows

variable {p : Rows} {g t k j w x : ℕ} {v : LoopVisit}

/-! ## The loops over what is left -/

theorem restOf_some (h : p.Takes g w t) : ∃ r, p.restOf g t = some r ∧
    ∀ k, counter p.M r.2 r.1 k = counter p.M p.workers (p.limit + w) k := by
  cases htail : p.tail with
  | one =>
    rw [Takes, htail] at h
    obtain ⟨hne, hg, rfl⟩ := h
    refine ⟨((p.limit + w) % p.M, p.threads), ?_, fun k => ?_⟩
    · rw [restOf, htail]
      exact if_pos ⟨hne, hg⟩
    · rw [workers, htail]
      exact counter_start_mod
  | all =>
    rw [Takes, htail] at h
    refine ⟨((p.limit + p.threads * g + t) % p.M, p.groups * p.threads % p.M), ?_, fun k => ?_⟩
    · rw [restOf, htail]
    · rw [workers, htail, h, Nat.mul_comm g, ← Nat.add_assoc]
      exact counter_mod

theorem exists_takes_of_restOf {r : ℕ × ℕ} (h : p.restOf g t = some r) : ∃ w, p.Takes g w t := by
  cases htail : p.tail with
  | one =>
    rw [restOf, htail] at h
    simp only [Option.ite_none_right_eq_some] at h
    refine ⟨t, ?_⟩
    rw [Takes, htail]
    exact ⟨h.1.1, h.1.2, rfl⟩
  | all =>
    refine ⟨g * p.threads + t, ?_⟩
    rw [Takes, htail]

theorem runs_rest : p.Runs ⟨g, t, .rest k⟩ ↔ g < p.groups ∧ t < p.threads ∧
    ∃ w, p.Takes g w t ∧ Executes p.M p.count p.workers (p.limit + w) k := by
  constructor
  · rintro ⟨hg, ht, r, hr, hex⟩
    obtain ⟨w, htakes⟩ := exists_takes_of_restOf hr
    obtain ⟨r', hr', hcounter⟩ := restOf_some htakes
    obtain rfl := Option.some.inj (hr.symm.trans hr')
    refine ⟨hg, ht, w, htakes, fun j hj => ?_⟩
    rw [← hcounter]
    exact hex j hj
  · rintro ⟨hg, ht, w, htakes, hex⟩
    obtain ⟨r, hr, hcounter⟩ := restOf_some htakes
    refine ⟨hg, ht, r, hr, fun j hj => ?_⟩
    change counter p.M r.2 r.1 j < p.count
    rw [hcounter]
    exact hex j hj

theorem cell_rest (h : p.Takes g w t) :
    p.cell ⟨g, t, .rest k⟩ = counter p.M p.workers (p.limit + w) k := by
  obtain ⟨r, hr, hcounter⟩ := restOf_some h
  simp only [cell, LoopVisit.cell, ThreadLoops.cell, thread, hr, hcounter]

theorem ends_rest (h : ∀ w, p.Takes g w t → Ends p.M p.count p.workers (p.limit + w)) :
    ∀ r ∈ p.restOf g t, Ends p.M p.count r.2 r.1 := by
  intro r hr
  obtain ⟨w, htakes⟩ := exists_takes_of_restOf hr
  obtain ⟨r', hr', hcounter⟩ := restOf_some htakes
  obtain rfl := Option.some.inj (hr.symm.trans hr')
  obtain ⟨k, hk⟩ := h w htakes
  exact ⟨k, hcounter k ▸ hk⟩

theorem TailFits.count_le (h : p.TailFits) (htakes : p.Takes g w t) (hpos : 0 < p.count) :
    p.count + p.workers ≤ p.M := by
  cases htail : p.tail with
  | one =>
    rw [TailFits, htail] at h
    rw [Takes, htail] at htakes
    rw [workers, htail]
    exact h.resolve_left htakes.1
  | all =>
    rw [TailFits, htail] at h
    rw [workers, htail]
    exact h.resolve_left (by omega)

/-! ## The unrolled loops -/

section

variable (h : p.MainFits) (hlimit : 0 < p.limit)
include h hlimit

theorem MainFits.row_eq : p.row = p.threads * p.unroll :=
  Nat.mod_eq_of_lt (h.resolve_left (by omega)).1

/-- No counter of a thread that is in time leaves the words. -/
theorem MainFits.next (hg : g < p.groups) (ht : t < p.threads) : g * p.row + t < p.groups * p.row ∧
      ∀ k, g * p.row + t + k * (p.groups * p.row) < p.limit →
        g * p.row + t + (k + 1) * (p.groups * p.row) < p.M := by
  have hle := threads_le_row (h.row_eq hlimit)
  obtain ⟨-, -, hfit⟩ := h.resolve_left (by omega)
  refine ⟨cell_lt hg (ht.trans_le hle), fun k hk => ?_⟩
  rw [main_lt ht hle] at hk
  have hmul := Nat.mul_le_mul_right p.row hk
  rw [Nat.div_mul_cancel p.row_dvd] at hmul
  have heq : (k * p.groups + g).succ * p.row + t + p.groups * p.row =
      g * p.row + t + (k + 1) * (p.groups * p.row) + p.row := by
    rw [Nat.succ_eq_add_one]
    ring
  omega

theorem start_eq (hg : g < p.groups) (ht : t < p.threads) :
    (p.thread g t).start = g * p.row + t := by
  apply Nat.mod_eq_of_lt
  exact (h.next hlimit hg ht).1.trans (h.resolve_left (by omega)).2.1

theorem stride_eq : (p.thread g t).stride = p.groups * p.row :=
  Nat.mod_eq_of_lt (h.resolve_left (by omega)).2.1

theorem MainFits.executes_iff (hg : g < p.groups) (ht : t < p.threads) :
    Executes p.M p.limit (p.thread g t).stride (p.thread g t).start k ↔
      g * p.row + t + k * (p.groups * p.row) < p.limit := by
  rw [start_eq h hlimit hg ht, stride_eq h hlimit]
  have hle := p.limit_le
  have hlt := p.count_lt
  obtain ⟨hstart, hnext⟩ := h.next hlimit hg ht
  apply executes_iff_of_next (by omega) _ hnext
  exact (hstart.trans (h.resolve_left (by omega)).2.1).trans_le p.words

end

theorem MainFits.ends (h : p.MainFits) (hg : g < p.groups) (ht : t < p.threads) :
    Ends p.M p.limit (p.thread g t).stride (p.thread g t).start := by
  rcases Nat.eq_zero_or_pos p.limit with hzero | hlimit
  · rw [hzero]
    exact ⟨0, Nat.zero_le _⟩
  · rw [start_eq h hlimit hg ht, stride_eq h hlimit]
    have hle := p.limit_le
    have hlt := p.count_lt
    have hrow := p.threads_pos.trans_le (threads_le_row (h.row_eq hlimit))
    obtain ⟨hstart, hnext⟩ := h.next hlimit hg ht
    apply ends_of_next (Nat.mul_pos p.groups_pos hrow) (by omega) _ hnext
    exact (hstart.trans (h.resolve_left (by omega)).2.1).trans_le p.words

/-! ## Every cell once -/

/-- The rows are visited also where the last counter wraps. -/
theorem Within.runs_main (hrow : p.threads * p.unroll < p.m) (hsweep : p.groups * p.row < p.m)
    (h : p.Within ⟨g, t, .main k j⟩ x) :
    p.Runs ⟨g, t, .main k j⟩ ∧ p.cell ⟨g, t, .main k j⟩ = x := by
  have hroweq : p.row = p.threads * p.unroll := Nat.mod_eq_of_lt hrow
  have hlt := h.lt_limit fun _ => hroweq
  have hle := p.limit_le
  have hM := p.count_lt
  obtain ⟨hg, ht, hj, hk, rfl⟩ := h
  change g * p.row + t + k * (p.groups * p.row) + j * p.threads < p.limit at hlt
  have hstart : (g * p.row + t) % p.m = g * p.row + t := by
    apply Nat.mod_eq_of_lt
    exact (cell_lt hg (ht.trans_le (threads_le_row hroweq))).trans hsweep
  have hoffset : j * p.threads % p.m = j * p.threads := by
    apply Nat.mod_eq_of_lt
    have hmul := Nat.mul_lt_mul_of_pos_right hj p.threads_pos
    rw [Nat.mul_comm p.unroll] at hmul
    exact hmul.trans hrow
  constructor
  · refine ⟨hg, ht, ?_, hj⟩
    change Executes p.M p.limit (p.groups * p.row % p.m) ((g * p.row + t) % p.m) k
    rw [hstart, Nat.mod_eq_of_lt hsweep]
    exact executes_of_lt (by omega) hk
  · change (counter p.M (p.groups * p.row % p.m) ((g * p.row + t) % p.m) k +
      j * p.threads % p.m) % p.M = g * p.row + t + k * (p.groups * p.row) + j * p.threads
    rw [hstart, Nat.mod_eq_of_lt hsweep, hoffset, counter_of_lt (by omega)]
    exact Nat.mod_eq_of_lt (by omega)

theorem MainFits.within_main (h : p.MainFits) :
    p.Runs ⟨g, t, .main k j⟩ ∧ p.cell ⟨g, t, .main k j⟩ = x ↔ p.Within ⟨g, t, .main k j⟩ x := by
  rcases Nat.eq_zero_or_pos p.limit with hzero | hlimit
  · constructor
    · rintro ⟨⟨-, -, hex, -⟩, -⟩
      have hcount : _ < p.limit := hex 0 (Nat.zero_le _)
      omega
    · rintro ⟨-, -, -, hk, -⟩
      omega
  · obtain ⟨hrow, hsweep, -⟩ := h.resolve_left (by omega)
    constructor
    · rintro ⟨⟨hg, ht, hex, hj⟩, rfl⟩
      have hwithin : p.Within ⟨g, t, .main k j⟩
          (g * p.row + t + k * (p.groups * p.row) + j * p.threads) :=
        ⟨hg, ht, hj, (h.executes_iff hlimit hg ht).mp hex, rfl⟩
      rw [(hwithin.runs_main hrow hsweep).2]
      exact hwithin
    · exact Within.runs_main hrow hsweep

theorem Within.runs_rest (h : p.Within ⟨g, t, .rest k⟩ x) :
    p.Runs ⟨g, t, .rest k⟩ ∧ p.cell ⟨g, t, .rest k⟩ = x := by
  obtain ⟨hg, ht, w, htakes, rfl, hlt⟩ := h
  have hM := p.count_lt
  rw [Rows.runs_rest, cell_rest htakes, counter_of_lt (by omega)]
  exact ⟨⟨hg, ht, w, htakes, executes_of_lt (by omega) hlt⟩, rfl⟩

theorem TailFits.within_rest (h : p.TailFits) :
    p.Runs ⟨g, t, .rest k⟩ ∧ p.cell ⟨g, t, .rest k⟩ = x ↔ p.Within ⟨g, t, .rest k⟩ x := by
  constructor
  · rw [runs_rest]
    rintro ⟨⟨hg, ht, w, htakes, hex⟩, rfl⟩
    have hpos : 0 < p.count := (Nat.zero_le _).trans_lt (hex 0 (Nat.zero_le _))
    have hfit := h.count_le htakes hpos
    have hlt := (executes_iff hfit (Nat.add_lt_add_of_le_of_lt p.limit_le (htakes.lt hg ht))).mp hex
    rw [cell_rest htakes, counter_of_lt (by omega)]
    exact ⟨hg, ht, w, htakes, rfl, hlt⟩
  · exact Within.runs_rest

theorem Fits.within_iff (h : p.Fits) : p.Runs v ∧ p.cell v = x ↔ p.Within v x := by
  obtain ⟨g, t, (⟨k, j⟩ | k)⟩ := v
  · exact h.2.1.within_main
  · exact h.2.2.within_rest

theorem Fits.exact (h : p.Fits) : p.Exact := by
  obtain ⟨hrow, hmain, htail⟩ := id h
  refine ⟨⟨?_, ?_, ?_⟩, hrow⟩
  · intro g hg t ht
    refine ⟨hmain.ends hg ht, ends_rest fun w htakes => ?_⟩
    rcases Nat.eq_zero_or_pos p.count with hzero | hpos
    · rw [hzero]
      exact ⟨0, Nat.zero_le _⟩
    · exact ends_of_le p.workers_pos (htail.count_le htakes hpos)
        (Nat.add_lt_add_of_le_of_lt p.limit_le (htakes.lt hg ht))
  · intro x hx
    obtain ⟨v, hv⟩ := exists_within hmain.row_eq hx
    refine ⟨v, h.within_iff.mpr hv, fun v' hv' => ?_⟩
    exact within_unique hmain.row_eq (h.within_iff.mp hv') hv
  · intro v hv
    exact (h.within_iff.mp ⟨hv, rfl⟩).lt_count hmain.row_eq

/-! ## Indices that wrap -/

theorem Exact.eq_of_cell {v' : LoopVisit} (h : p.Exact) (hv : p.Runs v) (hv' : p.Runs v')
    (heq : p.cell v = p.cell v') : v = v' :=
  (h.once _ (h.inside v' hv')).unique ⟨hv, heq⟩ ⟨hv', rfl⟩

variable {s : ℕ} {n : ℕ}

/-- The first turn of a thread. -/
theorem runs_first (hg : g < p.groups) (ht : t < p.threads) (hj : j < p.unroll)
    (hs : (g * p.row + t) % p.m = s) (hlt : s < p.limit) :
    p.Runs ⟨g, t, .main 0 j⟩ ∧ p.cell ⟨g, t, .main 0 j⟩ = (s + j * p.threads % p.m) % p.M := by
  have hM := p.limit_le.trans_lt p.count_lt
  have hcounter : counter p.M (p.groups * p.row % p.m) ((g * p.row + t) % p.m) 0 = s := by
    rw [hs, counter, Nat.zero_mul, Nat.add_zero]
    exact Nat.mod_eq_of_lt (by omega)
  constructor
  · refine ⟨hg, ht, fun i hi => ?_, hj⟩
    rw [Nat.le_zero.mp hi]
    exact hcounter.trans_lt hlt
  · change (counter p.M (p.groups * p.row % p.m) ((g * p.row + t) % p.m) 0 + _) % _ = _
    rw [hcounter]
    rfl

theorem runs_second (hs : p.groups * p.row % p.m = s) (hlt : s < p.limit) :
    p.Runs ⟨0, 0, .main 1 0⟩ ∧ p.cell ⟨0, 0, .main 1 0⟩ = s := by
  have hM := p.limit_le.trans_lt p.count_lt
  have hcounter : ∀ k ≤ 1, counter p.M (p.groups * p.row % p.m) ((0 * p.row + 0) % p.m) k =
      k * s := by
    intro k hk
    have hle := Nat.mul_le_mul_right s hk
    rw [hs, Nat.zero_mul, Nat.zero_mod, counter, Nat.zero_add]
    exact Nat.mod_eq_of_lt (by omega)
  constructor
  · refine ⟨p.groups_pos, p.threads_pos, fun k hk => ?_,
      Nat.zero_lt_one.trans p.unroll_gt⟩
    have hle := Nat.mul_le_mul_right s hk
    have hin : k * s < p.limit := by omega
    exact (hcounter k hk).trans_lt hin
  · change (counter p.M (p.groups * p.row % p.m) ((0 * p.row + 0) % p.m) 1 + 0 * p.threads % p.m) %
      p.M = s
    rw [hcounter 1 (Nat.le_refl 1), Nat.zero_mul, Nat.zero_mod, Nat.one_mul, Nat.add_zero]
    exact Nat.mod_eq_of_lt (by omega)

theorem first_start (p : Rows) : (0 * p.row + 0) % p.m = 0 := by
  rw [Nat.zero_mul, Nat.zero_mod]

theorem mod_of_first {a s : ℕ} (hle : p.m ≤ a) (hlt : a < p.m + s) (hs : s ≤ p.m) :
    a % p.m = a - p.m := by
  rw [Nat.mod_eq_sub_mod hle]
  exact Nat.mod_eq_of_lt (by omega)

section

variable (h : p.Exact) (hlimit : 0 < p.limit)
include h hlimit

theorem Exact.row_lt : p.threads * p.unroll < p.m := by
  by_contra hge
  have hM := p.limit_le.trans_lt p.count_lt
  have hD := p.threads_lt
  have hunroll := p.unroll_gt
  have hno : ∀ {g t k j y}, p.limit ≤ y → p.Runs ⟨g, t, .main k j⟩ →
      p.cell ⟨g, t, .main k j⟩ ≠ y := by
    rintro g t k j _ hle hruns rfl
    obtain ⟨g', t', k', hrest⟩ := exists_rest hle (h.inside _ hruns)
    have heq := h.eq_of_cell hruns hrest.runs_rest.1 hrest.runs_rest.2.symm
    cases heq
  obtain ⟨i, hi, hle, hlt⟩ := exists_first (k := p.unroll)
    (by omega : 0 < p.m + p.threads) (by rw [Nat.zero_add, Nat.mul_comm]; omega)
  rw [Nat.zero_add] at hle hlt
  have hmod := mod_of_first hle hlt hD.le
  rcases Nat.lt_or_eq_of_le hi with hi | rfl
  · obtain ⟨hruns, hcell⟩ := runs_first p.groups_pos p.threads_pos hi (first_start p) hlimit
    rw [hmod, Nat.zero_add, Nat.mod_eq_of_lt (by have := p.words; omega)] at hcell
    rcases Nat.lt_or_ge (i * p.threads - p.m) p.limit with hin | hout
    · have hs : (0 * p.row + (i * p.threads - p.m)) % p.m = i * p.threads - p.m := by
        rw [Nat.zero_mul, Nat.zero_add]
        exact Nat.mod_eq_of_lt (by omega)
      obtain ⟨hruns', hcell'⟩ := runs_first p.groups_pos (by omega) (by omega : 0 < p.unroll) hs hin
      rw [Nat.zero_mul, Nat.zero_mod, Nat.add_zero, Nat.mod_eq_of_lt (by omega)] at hcell'
      have heq := h.eq_of_cell hruns hruns' (hcell.trans hcell'.symm)
      have hi : i = 0 := (LoopSlot.main.inj (congrArg LoopVisit.slot heq)).2
      rw [hi, Nat.zero_mul] at hle
      omega
    · exact hno hout hruns hcell
  · have hrow : p.row = p.unroll * p.threads - p.m := by
      rw [row, Nat.mul_comm]
      exact hmod
    have hpos := h.divides
    rcases Nat.lt_or_ge p.row p.limit with hin | hout
    · have hs : (0 * p.row + p.row) % p.m = p.row := by
        rw [Nat.zero_mul, Nat.zero_add]
        exact Nat.mod_eq_of_lt (by omega)
      obtain ⟨hruns, hcell⟩ := runs_first p.groups_pos (by omega) (by omega : 0 < p.unroll) hs hin
      rw [Nat.zero_mul, Nat.zero_mod, Nat.add_zero, Nat.mod_eq_of_lt (by omega)] at hcell
      rcases Nat.lt_or_ge 1 p.groups with hmany | hone
      · have hs' : (1 * p.row + 0) % p.m = p.row := by
          rw [Nat.one_mul]
          exact Nat.mod_eq_of_lt (by omega)
        obtain ⟨hruns', hcell'⟩ := runs_first hmany p.threads_pos (by omega : 0 < p.unroll) hs' hin
        rw [Nat.zero_mul, Nat.zero_mod, Nat.add_zero, Nat.mod_eq_of_lt (by omega)] at hcell'
        have heq := congrArg LoopVisit.group (h.eq_of_cell hruns hruns' (hcell.trans hcell'.symm))
        exact absurd heq Nat.zero_ne_one
      · have hstride : p.groups * p.row % p.m = p.row := by
          rw [Nat.le_antisymm hone p.groups_pos, Nat.one_mul]
          exact Nat.mod_eq_of_lt (by omega)
        obtain ⟨hruns', hcell'⟩ := runs_second hstride hin
        have heq := congrArg LoopVisit.slot (h.eq_of_cell hruns hruns' (hcell.trans hcell'.symm))
        exact absurd (LoopSlot.main.inj heq).1 Nat.zero_ne_one
    · obtain ⟨hruns, hcell⟩ := runs_first p.groups_pos p.threads_pos hunroll (first_start p) hlimit
      rw [Nat.one_mul, Nat.mod_eq_of_lt hD, Nat.zero_add,
        Nat.mod_eq_of_lt (hD.trans_le p.words)] at hcell
      exact hno (by omega) hruns hcell

/-- Groups whose rows do not fit into a word share cells. -/
theorem Exact.sweep_lt : p.groups * p.row < p.m := by
  by_contra hge
  have hrow := h.row_lt hlimit
  have hroweq : p.row = p.threads * p.unroll := Nat.mod_eq_of_lt hrow
  have hle := p.row_le hlimit
  have hM := p.limit_le.trans_lt p.count_lt
  have hthreads := threads_le_row hroweq
  obtain ⟨i, hi, hfirst, hlast⟩ := exists_first (k := p.groups)
    (by omega : 0 < p.m + p.row) (by omega)
  rw [Nat.zero_add] at hfirst hlast
  have hmod := mod_of_first hfirst hlast (by omega)
  have hcolumn := Nat.mod_lt (i * p.row - p.m) p.threads_pos
  have hdiv := Nat.div_add_mod' (i * p.row - p.m) p.threads
  have hunroll : (i * p.row - p.m) / p.threads < p.unroll := by
    apply Nat.div_lt_of_lt_mul
    rw [← hroweq]
    omega
  have hs : (0 * p.row + (i * p.row - p.m) % p.threads) % p.m = (i * p.row - p.m) % p.threads := by
    rw [Nat.zero_mul, Nat.zero_add]
    exact Nat.mod_eq_of_lt (hcolumn.trans p.threads_lt)
  obtain ⟨hruns, hcell⟩ := runs_first p.groups_pos hcolumn hunroll hs (by omega)
  rw [Nat.mod_eq_of_lt (by omega : (i * p.row - p.m) / p.threads * p.threads < p.m),
    Nat.mod_add_div', Nat.mod_eq_of_lt (by omega : i * p.row - p.m < p.M)] at hcell
  rcases Nat.lt_or_eq_of_le hi with hi | rfl
  · have hs' : (i * p.row + 0) % p.m = i * p.row - p.m := hmod
    obtain ⟨hruns', hcell'⟩ := runs_first hi p.threads_pos
      (Nat.zero_lt_one.trans p.unroll_gt) hs' (by omega)
    rw [Nat.zero_mul, Nat.zero_mod, Nat.add_zero,
      Nat.mod_eq_of_lt (by omega : i * p.row - p.m < p.M)] at hcell'
    have heq := congrArg LoopVisit.group (h.eq_of_cell hruns hruns' (hcell.trans hcell'.symm))
    change 0 = i at heq
    rw [← heq, Nat.zero_mul] at hfirst
    have := p.m_pos
    omega
  · rcases Nat.eq_zero_or_pos (p.groups * p.row - p.m) with hzero | hpos
    · have hends := (h.ends 0 p.groups_pos 0 p.threads_pos).1
      change Ends p.M p.limit (p.groups * p.row % p.m) ((0 * p.row + 0) % p.m) at hends
      rw [hmod, hzero, first_start] at hends
      exact not_ends_of_stride (by rwa [Nat.zero_mod]) hends
    · obtain ⟨hruns', hcell'⟩ := runs_second hmod (by omega)
      have heq := congrArg LoopVisit.slot (h.eq_of_cell hruns hruns' (hcell.trans hcell'.symm))
      exact absurd (LoopSlot.main.inj heq).1 Nat.zero_ne_one

theorem Exact.last_le : p.limit + p.groups * p.row + p.threads ≤ p.M + p.row := by
  by_contra hgt
  have hrow := h.row_lt hlimit
  have hsweep := h.sweep_lt hlimit
  have hroweq : p.row = p.threads * p.unroll := Nat.mod_eq_of_lt hrow
  have hM := p.limit_le.trans_lt p.count_lt
  have hthreads := threads_le_row hroweq
  have hD := p.threads_pos
  have hwords := p.words
  have hrows := Nat.div_mul_cancel p.row_dvd
  have hQ : 0 < p.limit / p.row := Nat.div_pos (p.row_le hlimit) h.divides
  obtain ⟨q, hq⟩ := Nat.exists_eq_succ_of_ne_zero hQ.ne'
  rw [hq, Nat.succ_mul] at hrows
  have hbase : q % p.groups * p.row + (p.threads - 1) + q / p.groups * (p.groups * p.row) =
      p.limit - p.row + (p.threads - 1) := by
    have hdiv := Nat.div_add_mod' q p.groups
    have heq : q % p.groups * p.row + (p.threads - 1) + q / p.groups * (p.groups * p.row) =
        (q / p.groups * p.groups + q % p.groups) * p.row + (p.threads - 1) := by ring
    rw [heq, hdiv]
    omega
  have hg := Nat.mod_lt q p.groups_pos
  have hnext : q % p.groups * p.row + (p.threads - 1) + (q / p.groups + 1) * (p.groups * p.row) =
      p.limit - p.row + (p.threads - 1) + p.groups * p.row := by
    rw [Nat.add_mul, Nat.one_mul, ← Nat.add_assoc, hbase]
  have hstart : (q % p.groups * p.row + (p.threads - 1)) % p.m =
      q % p.groups * p.row + (p.threads - 1) := by
    apply Nat.mod_eq_of_lt
    exact (cell_lt hg (by omega)).trans hsweep
  have hcounter : counter p.M (p.groups * p.row)
      (q % p.groups * p.row + (p.threads - 1)) (q / p.groups + 1) =
        p.limit - p.row + (p.threads - 1) + p.groups * p.row - p.M := by
    rw [counter, hnext, Nat.mod_eq_sub_mod (by omega)]
    exact Nat.mod_eq_of_lt (by omega)
  have hin : p.limit - p.row + (p.threads - 1) + p.groups * p.row - p.M < p.limit := by omega
  have hruns : p.Runs ⟨q % p.groups, p.threads - 1, .main (q / p.groups + 1) 0⟩ := by
    refine ⟨hg, by change p.threads - 1 < p.threads; omega, fun i hi => ?_,
      Nat.zero_lt_one.trans p.unroll_gt⟩
    change counter p.M (p.groups * p.row % p.m)
      ((q % p.groups * p.row + (p.threads - 1)) % p.m) i < p.limit
    rw [hstart, Nat.mod_eq_of_lt hsweep]
    rcases Nat.lt_or_eq_of_le hi with hlt | rfl
    · have hmul := Nat.mul_le_mul_right (p.groups * p.row) (Nat.le_of_lt_succ hlt)
      rw [counter_of_lt (by omega)]
      omega
    · rwa [hcounter]
  have hcell : p.cell ⟨q % p.groups, p.threads - 1, .main (q / p.groups + 1) 0⟩ =
      p.limit - p.row + (p.threads - 1) + p.groups * p.row - p.M := by
    change (counter p.M (p.groups * p.row % p.m)
      ((q % p.groups * p.row + (p.threads - 1)) % p.m) (q / p.groups + 1) +
        0 * p.threads % p.m) % p.M = _
    rw [hstart, Nat.mod_eq_of_lt hsweep, hcounter, Nat.zero_mul, Nat.zero_mod, Nat.add_zero]
    exact Nat.mod_eq_of_lt (by omega)
  obtain ⟨g, t, k, j, hwithin⟩ := exists_main hroweq hin
  obtain ⟨hruns', hcell'⟩ := hwithin.runs_main hrow hsweep
  have heq := h.eq_of_cell hruns hruns' (hcell.trans hcell'.symm)
  cases heq
  have hlt : q % p.groups * p.row + (p.threads - 1) + (q / p.groups + 1) * (p.groups * p.row) <
      p.limit := hwithin.2.2.2.1
  omega

end

theorem Exact.rest_le (h : p.Exact) (hpos : 0 < p.count)
    (hne : p.tail = .one → p.count ≠ p.limit) : p.count + p.workers ≤ p.M := by
  by_contra hgt
  have hW := p.workers_pos
  have hle := p.limit_le
  have hM := p.count_lt
  obtain ⟨g, hg, t, ht, htakes⟩ := exists_takes (Nat.mod_lt (p.M - p.limit) hW) hne
  have hdiv := Nat.div_add_mod' (p.M - p.limit) p.workers
  have hk : p.limit + (p.M - p.limit) % p.workers + (p.M - p.limit) / p.workers * p.workers =
      p.M := by
    omega
  have hruns : p.Runs ⟨g, t, .rest ((p.M - p.limit) / p.workers)⟩ :=
    runs_rest.mpr ⟨hg, ht, _, htakes, executes_wrapped hpos hM.le hk (by omega)⟩
  have hcell : p.cell ⟨g, t, .rest ((p.M - p.limit) / p.workers)⟩ = 0 := by
    rw [cell_rest htakes, counter, hk, Nat.mod_self]
  rcases Nat.eq_zero_or_pos p.limit with hzero | hlimit
  · obtain ⟨g', t', k', hwithin⟩ := exists_rest (p := p) (x := 0) (by omega) hpos
    obtain ⟨hruns', hcell'⟩ := hwithin.runs_rest
    have heq := h.eq_of_cell hruns hruns' (hcell.trans hcell'.symm)
    cases heq
    obtain ⟨-, -, w, htakes', hx, -⟩ := hwithin
    have hw := htakes.number htakes'
    change 0 = p.limit + w + (p.M - p.limit) / p.workers * p.workers at hx
    omega
  · obtain ⟨hruns', hcell'⟩ := runs_first p.groups_pos p.threads_pos
      (Nat.zero_lt_one.trans p.unroll_gt) (first_start p) hlimit
    rw [Nat.zero_mul, Nat.zero_mod, Nat.add_zero, Nat.zero_mod] at hcell'
    have heq := congrArg LoopVisit.slot (h.eq_of_cell hruns hruns' (hcell.trans hcell'.symm))
    cases heq

theorem exact_iff (p : Rows) : p.Exact ↔ p.Fits := by
  constructor
  · intro h
    refine ⟨h.divides, ?_, ?_⟩
    · rcases Nat.eq_zero_or_pos p.limit with hzero | hlimit
      · exact .inl hzero
      · exact .inr ⟨h.row_lt hlimit, h.sweep_lt hlimit, h.last_le hlimit⟩
    · have hle := p.limit_le
      have hrest := h.rest_le
      rw [workers] at hrest
      rw [TailFits]
      cases htail : p.tail with
      | one =>
        rw [htail] at hrest
        by_cases hne : p.count = p.limit
        · exact .inl hne
        · exact .inr (hrest (by omega) fun _ => hne)
      | all =>
        rw [htail] at hrest
        rcases Nat.eq_zero_or_pos p.count with hzero | hpos
        · exact .inl hzero
        · exact .inr (hrest hpos fun heq => by cases heq)
  · exact Fits.exact

/-! ## Cells that may be visited again -/

/-- All loops end, and the cells that are visited are those below `n`. -/
structure Fills (p : Rows) (n : ℕ) : Prop where
  divides : 0 < p.row
  ends : ∀ g < p.groups, ∀ t < p.threads, (p.thread g t).Ends
  covers : ∀ x < n, ∃ v, p.Runs v ∧ p.cell v = x
  inside : ∀ v, p.Runs v → p.cell v < n

theorem exact_iff_fills : p.Exact ↔ p.Fills p.count ∧
    ∀ v v', p.Runs v → p.Runs v' → p.cell v = p.cell v' → v = v' := by
  constructor
  · intro h
    refine ⟨⟨h.divides, h.ends, fun x hx => ?_, h.inside⟩, fun v v' => h.eq_of_cell⟩
    exact (h.once x hx).exists
  · rintro ⟨h, honce⟩
    refine ⟨⟨h.ends, fun x hx => ?_, h.inside⟩, h.divides⟩
    rcases h.covers x hx with ⟨v, hv, hcell⟩
    refine ⟨v, ⟨hv, hcell⟩, ?_⟩
    rintro v' ⟨hv', hcell'⟩
    exact honce v' v hv' hv (hcell'.trans hcell.symm)

theorem cell_lt_add_row (hrow : p.threads * p.unroll < p.m) (hv : p.Runs v) :
    p.cell v < p.count + p.row := by
  rcases v with ⟨g, t, ⟨k, j⟩ | k⟩
  · rcases hv with ⟨-, -, hex, hj⟩
    have hcounter := hex k (le_refl k)
    have hle := p.limit_le
    have hoffset : j * p.threads % p.m < p.row := by
      rw [row, Nat.mod_eq_of_lt hrow, Nat.mul_comm p.threads]
      exact (Nat.mod_le _ _).trans_lt (Nat.mul_lt_mul_of_pos_right hj p.threads_pos)
    apply (Nat.mod_le _ _).trans_lt
    change counter p.M _ _ k < p.limit at hcounter
    change counter p.M _ _ k + j * p.threads % p.m < p.count + p.row
    omega
  · rcases runs_rest.mp hv with ⟨-, -, w, htakes, hex⟩
    rw [cell_rest htakes]
    exact (hex k (le_refl k)).trans_le (Nat.le_add_right _ _)

theorem exists_runs (hwords : p.m = p.M) (hrow : p.threads * p.unroll < p.m) (hx : x < p.count) :
    ∃ v, p.Runs v ∧ p.cell v = x := by
  have hroweq : p.row = p.threads * p.unroll := Nat.mod_eq_of_lt hrow
  rcases exists_within (fun _ => hroweq) hx with ⟨⟨g, t, ⟨k, j⟩ | k⟩, hv⟩
  · refine ⟨⟨g, t, .main k j⟩, ?_⟩
    have hM := p.count_lt
    have hcount := hv.lt_count fun _ => hroweq
    rcases hv with ⟨hg, ht, hj, hk, rfl⟩
    change g * p.row + t + k * (p.groups * p.row) < p.limit at hk
    change g * p.row + t + k * (p.groups * p.row) + j * p.threads < p.count at hcount
    have hlimit := p.limit_le
    have hoffset : j * p.threads % p.m = j * p.threads := by
      rw [hwords]
      exact Nat.mod_eq_of_lt (by omega)
    constructor
    · refine ⟨hg, ht, ?_, hj⟩
      change Executes p.M p.limit (p.groups * p.row % p.m) ((g * p.row + t) % p.m) k
      rw [hwords, executes_mod]
      exact executes_of_lt (by omega) hk
    · change (counter p.M (p.groups * p.row % p.m) ((g * p.row + t) % p.m) k +
        j * p.threads % p.m) % p.M = g * p.row + t + k * (p.groups * p.row) + j * p.threads
      rw [hoffset, hwords, counter_mod, counter_of_lt (by omega)]
      exact Nat.mod_eq_of_lt (by omega)
  · exact ⟨_, hv.runs_rest⟩

theorem Fills.le_add_row (h : p.Fills n) (hrow : p.threads * p.unroll < p.m) :
    n ≤ p.count + p.row := by
  rcases Nat.eq_zero_or_pos n with hzero | hpos
  · omega
  · rcases h.covers (n - 1) (by omega) with ⟨v, hv, hcell⟩
    have hlt := cell_lt_add_row hrow hv
    omega

theorem Fills.count_le (h : p.Fills n) (hwords : p.m = p.M)
    (hrow : p.threads * p.unroll < p.m) : p.count ≤ n := by
  rcases Nat.eq_zero_or_pos p.count with hzero | hpos
  · omega
  · rcases exists_runs hwords hrow (x := p.count - 1) (by omega) with ⟨v, hv, hcell⟩
    have hlt := h.inside v hv
    omega

end TorchComms.Foundation.Rows
