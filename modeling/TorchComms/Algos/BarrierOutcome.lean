import TorchComms.Algos.BarrierExchange
import TorchComms.Foundation.Run
import Mathlib.Data.Finset.Max
import Mathlib.Data.Nat.Log

/-! # What the barrier keeps apart

Ranks are compared by their levels, which count all that they have done. The rank that has done
least can go on, or its peer can. A group of ranks behind a step has heard from all its members;
where some have no peer in it, nobody tells of the others.
-/
namespace TorchComms.Algos.DeviceBarrier

open Function Relation Foundation

/-- What a rank has done in its call. It is a multiple of five between the exchanges. -/
def Pc.depth (lower : ℕ → Bool) : Pc → ℕ
  | out => 0
  | head step => 5 * (step + 1)
  | exch step op => 5 * (step + 1) + 1 + op.ord (lower step)

/-- What a call takes. -/
def span (nranks : ℕ) : ℕ := 5 * (nsteps nranks + 2)

def State.level (s : State) (nranks r : ℕ) : ℕ :=
  s.returned r * span nranks + (s.pc r).depth (isLower r)

variable {nranks t l h r q step k p g : ℕ} {s s' : State} {op : FlagOp}

theorem FlagOp.ord_le (lower : Bool) (op : FlagOp) : op.ord lower ≤ 3 := by
  cases lower <;> cases op <;> simp [ord]

theorem Inv.exch_lt (hinv : Inv nranks s) (hr : r < nranks) (hpc : s.pc r = .exch step op) :
    step < nsteps nranks := by
  rcases exists_meet hr (hinv.exch r hr step op hpc) with hm | hm
  · exact hm.lt_nsteps
  · exact hm.lt_nsteps

theorem Inv.depth_lt (hinv : Inv nranks s) (hr : r < nranks) :
    (s.pc r).depth (isLower r) < span nranks := by
  cases hpc : s.pc r with
  | out => simp [Pc.depth, span]
  | head step =>
    have hle := hinv.head r hr step hpc
    simp only [Pc.depth, span]
    omega
  | exch step op =>
    have hlt := hinv.exch_lt hr hpc
    have hord := op.ord_le (isLower r step)
    simp only [Pc.depth, span]
    omega

/-! ## Levels rise -/

theorem depth_behind (lower : ℕ → Bool) (step : ℕ) (op : FlagOp) :
    (Pc.behind (lower step) step op).depth lower = (Pc.exch step op).depth lower + 1 := by
  cases hlow : lower step <;> cases op <;>
    simp [Pc.behind, FlagOp.next, Pc.depth, FlagOp.ord, hlow] <;> omega

variable {sync : ℕ → ℕ → Flag}

theorem level_goto {pc : Pc} (hlt : (s.pc r).depth (isLower r) < pc.depth (isLower r))
    (hle : pc.depth (isLower r) ≤ 5 * ((s.pc r).depth (isLower r) / 5) + 5) :
    s.level nranks r < ({ s with sync := sync }.goto r pc).level nranks r ∧
      ({ s with sync := sync }.goto r pc).level nranks r ≤ 5 * (s.level nranks r / 5) + 5 := by
  have hspan : s.returned r * span nranks = 5 * (s.returned r * (nsteps nranks + 2)) := by
    rw [span, Nat.mul_left_comm]
  simp only [State.level, State.goto, update_self, hspan]
  omega

theorem level_after (hpc : s.pc r = .exch step op) :
    s.level nranks r < ({ s with sync := sync }.after r step op).level nranks r ∧
      ({ s with sync := sync }.after r step op).level nranks r ≤
        5 * (s.level nranks r / 5) + 5 := by
  have hdepth := depth_behind (isLower r) step op
  have hord := op.ord_le (isLower r step)
  apply level_goto
  · rw [hpc]
    omega
  · rw [hpc, hdepth]
    simp only [Pc.depth]
    omega

section

variable (hstep : Step nranks s r s')
include hstep

theorem Step.level :
    s.level nranks r < s'.level nranks r ∧
      s'.level nranks r ≤ 5 * (s.level nranks r / 5) + 5 := by
  cases hstep with
  | enter hpc => exact level_goto (by simp [hpc, Pc.depth]) (by simp [hpc, Pc.depth])
  | skip step hpc _ _ => exact level_goto (by simp [hpc, Pc.depth]) (by simp [hpc, Pc.depth]; omega)
  | exchange step hpc _ _ =>
    have hfirst : (FlagOp.first (isLower r step)).ord (isLower r step) = 0 := by
      cases isLower r step <;> rfl
    apply level_goto
    · simp [hpc, Pc.depth, hfirst]
    · simp [hpc, Pc.depth, hfirst]
  | waitReset step hpc _ => exact level_after hpc
  | setStep step hpc => exact level_after hpc
  | waitStep step hpc _ => exact level_after hpc
  | setReset step hpc => exact level_after hpc
  | leave hpc =>
    have hspan : s.returned r * span nranks = 5 * (s.returned r * (nsteps nranks + 2)) := by
      rw [span, Nat.mul_left_comm]
    simp only [State.level, State.leave, update_self, hpc, Pc.depth, Nat.add_mul, hspan]
    simp only [span]
    omega

theorem Step.frame (hq : q ≠ r) : s'.pc q = s.pc q ∧ s'.returned q = s.returned q := by
  cases hstep <;> simp [State.goto, State.after, State.leave, State.devSyncSetStep, hq]

theorem Step.level_of_ne (hq : q ≠ r) : s'.level nranks q = s.level nranks q := by
  obtain ⟨hpc, hret⟩ := hstep.frame hq
  rw [State.level, State.level, hpc, hret]

end

/-! ## Who has done least can go on -/

section

variable (hinv : Inv nranks s)
include hinv

theorem Inv.remote_clear (hr : r < nranks) (hpc : s.pc r = .exch step op)
    (hop : op = .waitReset ∨ op = .setStep) :
    (s.sync (peer r step) r).step = CTRAN_ALGO_STEP_RESET := by
  have hplace := place_mod hpc
  rcases exists_meet hr (hinv.exch r hr step _ hpc) with hm | hm
  · have hpp := hinv.paired step _ _ hm
    have hplace_mod : s.place step r % 4 < 2 := by
      rw [hm.lower] at hplace
      rcases hop with rfl | rfl <;> simp [hplace, FlagOp.ord]
    exact hpp.ping_clear (hpp.inStep.ping_clear hplace_mod)
  · have hpp := hinv.paired step _ _ hm
    have hplace_mod : 2 ≤ s.place step r % 4 := by
      rw [hm.upper] at hplace
      rcases hop with rfl | rfl <;> simp [hplace, FlagOp.ord]
    exact hpp.pong_clear (hpp.inStep.pong_clear hplace_mod)

theorem Inv.enabled (hr : r < nranks) (hpc : s.pc r = .exch step op)
    (hop : op ≠ .waitStep) : ∃ s', Step nranks s r s' := by
  cases op with
  | waitReset => exact ⟨_, .waitReset step hpc (hinv.remote_clear hr hpc (.inl rfl))⟩
  | setStep => exact ⟨_, .setStep step hpc⟩
  | waitStep => exact absurd rfl hop
  | setReset => exact ⟨_, .setReset step hpc⟩

/-- A rank at the same level or a higher one, with fewer operations done in the step, has not left
the step. -/
theorem Inv.still_there (hq : q < nranks) (hpc : s.pc r = .exch step op)
    (hle : s.level nranks r ≤ s.level nranks q) (hplace : s.place step q < 4 * s.returned r + 4) :
    ∃ op', s.pc q = .exch step op' ∧ op.ord (isLower r step) ≤ op'.ord (isLower q step) ∧
      s.place step q = 4 * s.returned r + op'.ord (isLower q step) := by
  have hdepth := hinv.depth_lt hq
  have hret : s.returned q = s.returned r := by
    apply Nat.le_antisymm
    · rw [State.place] at hplace
      omega
    · by_contra hlt
      have hmul := Nat.mul_le_mul_right (span nranks) (Nat.lt_of_not_le hlt)
      rw [Nat.succ_mul] at hmul
      simp only [State.level] at hle
      omega
  simp only [State.level, hret, hpc] at hle
  simp only [State.place, hret] at hplace
  cases hpq : s.pc q with
  | out =>
    simp only [hpq, Pc.depth] at hle
    omega
  | head step' =>
    simp only [hpq, Pc.depth] at hle
    simp only [hpq, Pc.within] at hplace
    rw [if_pos (by omega)] at hplace
    omega
  | exch step' op' =>
    have hord := op.ord_le (isLower r step)
    have hord' := op'.ord_le (isLower q step')
    simp only [hpq, Pc.depth] at hle
    simp only [hpq, Pc.within] at hplace
    obtain heq | hlt : step' = step ∨ step < step' := by omega
    · subst heq
      refine ⟨op', rfl, by omega, ?_⟩
      simp [State.place, hpq, Pc.within, hret]
    · rw [if_pos hlt] at hplace
      omega

/-- A rank that waits for its peer's step can go on, or the peer can, unless it has done less. -/
theorem Inv.waitStep_or_peer (hr : r < nranks)
    (hpc : s.pc r = .exch step .waitStep) (hle : s.level nranks r ≤ s.level nranks (peer r step)) :
    (∃ s', Step nranks s r s') ∨
      ∃ op, s.pc (peer r step) = .exch step op ∧ ∃ s', Step nranks s (peer r step) s' := by
  have hpeer := hinv.exch r hr step _ hpc
  have hplace := place_mod hpc
  rcases exists_meet hr hpeer with hm | hm
  · have hpp := hinv.paired step _ _ hm
    rw [hm.lower] at hplace
    by_cases hup : PingPong.PongUp (s.place step r) (s.place step (peer r step))
    · exact .inl ⟨_, .waitStep step hpc (by rw [hpp.pong_raised hup]; rfl)⟩
    · right
      have hbehind : s.place step (peer r step) < s.place step r + 2 := by
        by_contra hahead
        exact hup (hpp.inStep.pong_of_le (by simp [hplace, FlagOp.ord]) (by omega))
      rw [hplace] at hbehind
      obtain ⟨op, hop, hord, -⟩ := hinv.still_there hpeer hpc hle hbehind
      rw [hm.lower, hm.upper] at hord
      refine ⟨op, hop, hinv.enabled hpeer hop ?_⟩
      rintro rfl
      simp [FlagOp.ord] at hord
  · have hpp := hinv.paired step _ _ hm
    rw [hm.upper] at hplace
    by_cases hup : PingPong.PingUp (s.place step (peer r step)) (s.place step r)
    · exact .inl ⟨_, .waitStep step hpc (by rw [hpp.ping_raised hup]; rfl)⟩
    · right
      have hbehind : s.place step (peer r step) < s.place step r + 2 := by
        by_contra hahead
        exact hup (hpp.inStep.ping_of_le (by simp [hplace, FlagOp.ord]) (by omega))
      rw [hplace] at hbehind
      simp only [FlagOp.ord] at hbehind
      obtain ⟨op, hop, -, hat⟩ := hinv.still_there hpeer hpc hle (by omega)
      rw [hm.lower] at hat
      refine ⟨op, hop, hinv.enabled hpeer hop ?_⟩
      rintro rfl
      simp only [FlagOp.ord] at hat
      omega

end

theorem level_exch_mod (hpc : s.pc r = .exch step op) : s.level nranks r % 5 ≠ 0 := by
  have hspan : s.returned r * span nranks = 5 * (s.returned r * (nsteps nranks + 2)) := by
    rw [span, Nat.mul_left_comm]
  have hord := op.ord_le (isLower r step)
  simp only [State.level, hpc, Pc.depth, hspan]
  omega

/-- A step of one of the first `p` ranks below a level. -/
def MovesBelow (nranks p level : ℕ) (s s' : State) : Prop :=
  ∃ r < p, s.level nranks r < level ∧ Step nranks s r s'

theorem Inv.exists_moves (hinv : Inv nranks s) (hp : p ≤ nranks)
    (hclosed : ∀ r < p, ∀ step, step + 1 < g → peer r step < nranks → peer r step < p)
    (hle : ∀ r < p, s.level nranks r ≤ 5 * g) (hnot : ¬∀ r < p, s.level nranks r = 5 * g) :
    ∃ s', MovesBelow nranks p (5 * g) s s' := by
  push Not at hnot
  obtain ⟨r₀, hr₀, hne⟩ := hnot
  obtain ⟨r, hr, hmin⟩ := Finset.exists_min_image (Finset.range p) (s.level nranks)
    ⟨r₀, Finset.mem_range.mpr hr₀⟩
  rw [Finset.mem_range] at hr
  have hbelow : s.level nranks r < 5 * g := by
    have hr₀_le := hle r₀ hr₀
    have hmin₀ := hmin r₀ (Finset.mem_range.mpr hr₀)
    omega
  have hrn : r < nranks := Nat.lt_of_lt_of_le hr hp
  cases hpc : s.pc r with
  | out => exact ⟨_, r, hr, hbelow, .enter hpc⟩
  | head step =>
    obtain heq | hlt : step = nsteps nranks ∨ step < nsteps nranks := by
      have hhead := hinv.head r hrn step hpc
      omega
    · subst heq
      exact ⟨_, r, hr, hbelow, .leave hpc⟩
    · by_cases hpeer : peer r step < nranks
      · exact ⟨_, r, hr, hbelow, .exchange step hpc hlt hpeer⟩
      · exact ⟨_, r, hr, hbelow, .skip step hpc hlt (Nat.le_of_not_lt hpeer)⟩
  | exch step op =>
    by_cases hop : op = .waitStep
    · subst hop
      have hstep : step + 1 < g := by
        simp only [State.level, hpc, Pc.depth] at hbelow
        omega
      have hpeer := hclosed r hr step hstep (hinv.exch r hrn step _ hpc)
      rcases hinv.waitStep_or_peer hrn hpc (hmin _ (Finset.mem_range.mpr hpeer)) with
        ⟨s', hs'⟩ | ⟨op, hop, s', hs'⟩
      · exact ⟨s', r, hr, hbelow, hs'⟩
      · have hpeer_le := hle _ hpeer
        have hmod : s.level nranks (peer r step) % 5 ≠ 0 := level_exch_mod hop
        exact ⟨s', _, hpeer, by omega, hs'⟩
    · obtain ⟨s', hs'⟩ := hinv.enabled hrn hpc hop
      exact ⟨s', r, hr, hbelow, hs'⟩

section

variable (hinv : Inv nranks s)
include hinv

theorem Inv.exists_level (hp : p ≤ nranks)
    (hclosed : ∀ r < p, ∀ step, step + 1 < g → peer r step < nranks → peer r step < p)
    (hle : ∀ r < p, s.level nranks r ≤ 5 * g) :
    ∃ t, ReflTransGen (Moves nranks) s t ∧ (∀ r < p, t.level nranks r = 5 * g) ∧
      ∀ r, p ≤ r → t.pc r = s.pc r ∧ t.returned r = s.returned r := by
  let Keeps (t : State) : Prop := Inv nranks t ∧ (∀ r < p, t.level nranks r ≤ 5 * g) ∧
    ∀ r, p ≤ r → t.pc r = s.pc r ∧ t.returned r = s.returned r
  have hkeeps (t t' : State) (h : Keeps t) (hmove : MovesBelow nranks p (5 * g) t t') :
      Keeps t' := by
    obtain ⟨hinv, hle, hothers⟩ := h
    obtain ⟨r, hr, hbelow, hstep⟩ := hmove
    refine ⟨hinv.moves (Nat.lt_of_lt_of_le hr hp) hstep, ?_, ?_⟩
    · intro q hq
      by_cases hqr : q = r
      · subst hqr
        have hlevel := hstep.level.2
        omega
      · rw [hstep.level_of_ne hqr]
        exact hle q hq
    · intro q hq
      obtain ⟨hpc, hret⟩ := hstep.frame (show q ≠ r by omega)
      rw [hpc, hret]
      exact hothers q hq
  obtain ⟨t, hrun, ht, hkept⟩ := exists_done Keeps
    (fun t => (∀ r < p, t.level nranks r = 5 * g) ∧ Keeps t)
    (fun t => ∑ r ∈ Finset.range p, t.level nranks r) (p * (5 * g)) hkeeps
    (by
      rintro t t' - ⟨r, hr, -, hstep⟩
      apply sum_work_lt hr hstep.level.1
      intro q _
      by_cases hqr : q = r
      · subst hqr
        exact Nat.le_of_lt hstep.level.1
      · exact (hstep.level_of_ne hqr).ge)
    (fun t h => sum_work_le h.2.1) (fun t h hnot =>
      h.1.exists_moves hp hclosed h.2.1 fun hall => hnot ⟨hall, h⟩)
    (show Keeps s from ⟨hinv, hle, fun _ _ => ⟨rfl, rfl⟩⟩)
  refine ⟨t, ReflTransGen.mono ?_ _ _ hrun, ht, hkept.2.2⟩
  rintro a b ⟨r, hr, -, hstep⟩
  exact ⟨r, Nat.lt_of_lt_of_le hr hp, hstep⟩

/-! ## What holds for every number of ranks -/

theorem entered_level (hr : r < nranks) : s.level nranks r ≤ s.entered r * span nranks := by
  cases hpc : s.pc r with
  | out => simp [State.level, State.entered, hpc, Pc.depth]
  | _ =>
    have hdepth := hinv.depth_lt hr
    simp only [hpc] at hdepth
    simp only [State.level, State.entered, hpc, reduceCtorEq, if_false, Nat.succ_mul]
    omega

theorem out_of_level (hr : r < nranks)
    (hlevel : s.level nranks r = k * span nranks) : s.pc r = .out ∧ s.returned r = k := by
  have hdepth := hinv.depth_lt hr
  have hpos : 0 < span nranks := by
    rw [span]
    omega
  have hret : s.returned r = k := by
    have hdiv : s.level nranks r / span nranks = k := by
      rw [hlevel, Nat.mul_div_cancel _ hpos]
    rwa [State.level, Nat.add_comm, Nat.add_mul_div_right _ _ hpos, Nat.div_eq_of_lt hdepth,
      Nat.zero_add] at hdiv
  refine ⟨?_, hret⟩
  rw [State.level, hret] at hlevel
  cases hpc : s.pc r with
  | out => rfl
  | _ =>
    simp only [hpc, Pc.depth] at hlevel
    omega

theorem Inv.returns {calls : ℕ} (hcalls : ∀ r < nranks, s.entered r ≤ calls) :
    ∃ t, ReflTransGen (Moves nranks) s t ∧ ∀ r < nranks, t.pc r = .out ∧ t.returned r = calls := by
  have hspan : calls * span nranks = 5 * (calls * (nsteps nranks + 2)) := by
    rw [span, Nat.mul_left_comm]
  obtain ⟨t, hrun, hlevel, -⟩ := hinv.exists_level (g := calls * (nsteps nranks + 2)) (Nat.le_refl _)
    (fun _ _ _ _ hpeer => hpeer) (by
      intro r hr
      rw [← hspan]
      exact (entered_level hinv hr).trans (Nat.mul_le_mul_right _ (hcalls r hr)))
  refine ⟨t, hrun, fun r hr => out_of_level (hinv.run hrun) hr ?_⟩
  rw [hlevel r hr, hspan]

theorem Inv.consumed (hr : r < nranks) (hpc : s.pc r = .exch step .setReset) :
    s.sync r (peer r step) = ⟨step, s.returned r + 1⟩ := by
  have hplace := place_mod hpc
  rcases exists_meet hr (hinv.exch r hr step _ hpc) with hm | hm
  · have hpp := hinv.paired step _ _ hm
    rw [hm.lower] at hplace
    have hup := hpp.inStep.pong_up (by simp [hplace, FlagOp.ord])
    have hcall := hpp.inStep.pongs_eq hup
    rw [hpp.pong_raised hup, hcall, hplace, stepFlag]
    simp only [PingPong.pongsCleared, FlagOp.ord]
    congr 1
    omega
  · have hpp := hinv.paired step _ _ hm
    rw [hm.upper] at hplace
    have hup := hpp.inStep.ping_up (by simp [hplace, FlagOp.ord])
    have hcall := hpp.inStep.pings_eq hup
    rw [hpp.ping_raised hup, hcall, hplace, stepFlag]
    simp only [PingPong.pingsCleared, FlagOp.ord]
    congr 1
    omega

theorem Meet.clear_of_out (hm : Meet nranks t l h) (hl : s.pc l = .out)
    (hh : s.pc h = .out) : IsReset (s.sync h l) ∧ IsReset (s.sync l h) := by
  have hpp := hinv.paired t l h hm
  rw [Paired, State.place, State.place, hl, hh] at hpp
  have heq := PingPong.InStep.settled hpp.inStep
  refine ⟨hpp.ping_clear ?_, hpp.pong_clear ?_⟩
  · simp [PingPong.PingUp, PingPong.pings, PingPong.pingsCleared, Pc.within, heq]
  · simp [PingPong.PongUp, PingPong.pongs, PingPong.pongsCleared, Pc.within, heq]

theorem Inv.quiet (hout : ∀ r < nranks, s.pc r = .out) (owner other : ℕ) :
    (s.sync owner other).step = CTRAN_ALGO_STEP_RESET := by
  by_contra hnot
  obtain ⟨t, hm | hm⟩ := hinv.others owner other hnot
  · have hlt := Nat.lt_trans hm.lt hm.bound
    exact hnot (hm.clear_of_out hinv (hout _ hlt) (hout _ hm.bound)).2
  · have hlt := Nat.lt_trans hm.lt hm.bound
    exact hnot (hm.clear_of_out hinv (hout _ hlt) (hout _ hm.bound)).1

end

/-! ## Powers of two -/

theorem span_le_of_lt (h : s.returned r < k) :
    s.returned r * span nranks + span nranks ≤ k * span nranks := by
  rw [← Nat.succ_mul]
  exact Nat.mul_le_mul_right _ h

theorem place_of_level (hinv : Inv nranks s) (hr : r < nranks)
    (hlevel : k * span nranks + 5 * (step + 2) ≤ s.level nranks r) :
    4 * k + 4 ≤ s.place step r := by
  have hdepth := hinv.depth_lt hr
  rw [State.level] at hlevel
  rw [State.place]
  obtain hlt | heq | hgt := Nat.lt_trichotomy (s.returned r) k
  · have hspan : s.returned r * span nranks + span nranks ≤ k * span nranks := span_le_of_lt hlt
    omega
  · rw [heq] at hlevel ⊢
    cases hpc : s.pc r with
    | out =>
      simp only [hpc, Pc.depth] at hlevel
      omega
    | head step' =>
      simp only [hpc, Pc.depth] at hlevel
      rw [Pc.within, if_pos (by omega)]
    | exch step' op =>
      have hord := op.ord_le (isLower r step')
      simp only [hpc, Pc.depth] at hlevel
      rw [Pc.within, if_pos (by omega)]
  · omega

theorem within_le (lower : Bool) (t : ℕ) (pc : Pc) : pc.within lower t ≤ 4 := by
  cases pc with
  | out => exact Nat.zero_le _
  | head step =>
    simp only [Pc.within]
    split_ifs <;> omega
  | exch step op =>
    have hord := op.ord_le lower
    simp only [Pc.within]
    split_ifs <;> omega

theorem level_of_place (hstep : step < nsteps nranks) (hplace : 4 * k + 2 ≤ s.place step r) :
    k * span nranks + 5 * (step + 1) ≤ s.level nranks r := by
  rw [State.place] at hplace
  rw [State.level]
  obtain hlt | heq | hgt := Nat.lt_trichotomy (s.returned r) k
  · have hwithin := within_le (isLower r step) step (s.pc r)
    omega
  · rw [heq] at hplace ⊢
    cases hpc : s.pc r with
    | out =>
      simp only [hpc, Pc.within] at hplace
      omega
    | head step' =>
      simp only [hpc, Pc.within] at hplace
      simp only [Pc.depth]
      split_ifs at hplace <;> omega
    | exch step' op =>
      simp only [hpc, Pc.within] at hplace
      simp only [Pc.depth]
      split_ifs at hplace <;> omega
  · have hmul := Nat.mul_le_mul_right (span nranks) hgt
    rw [Nat.succ_mul] at hmul
    have hspan : 5 * (step + 1) ≤ span nranks := by
      rw [span]
      omega
    omega

variable {m : ℕ}

section

variable (hinv : Inv nranks s) (hn : nranks = 2 ^ m)
include hinv hn

theorem Inv.group_entered {i : ℕ} (hi : i ≤ nsteps nranks) (hr : r < nranks)
    (hlevel : k * span nranks + 5 * (i + 1) ≤ s.level nranks r)
    (hgroup : q / 2 ^ i = r / 2 ^ i) : k * span nranks + 5 ≤ s.level nranks q := by
  induction i generalizing r with
  | zero =>
    rw [Nat.pow_zero, Nat.div_one, Nat.div_one] at hgroup
    rwa [hgroup]
  | succ i ih =>
    have hpeer : peer r i < nranks := by
      have hlt := two_pow_lt_of_lt_nsteps hi
      rw [hn] at hr hlt ⊢
      exact peer_lt_two_pow hr ((Nat.pow_lt_pow_iff_right Nat.one_lt_two).mp hlt)
    rcases half_eq_or_peer hgroup with hhalf | hhalf
    · exact ih (by omega) hr (by omega) hhalf
    · refine ih (by omega) hpeer (level_of_place hi ?_) hhalf
      have hdone := place_of_level hinv hr hlevel
      rcases exists_meet hr hpeer with hm | hm
      · have hpeer_done := (hinv.paired i _ _ hm).inStep.upper_done hdone
        omega
      · exact (hinv.paired i _ _ hm).inStep.lower_raised hdone

theorem Inv.barrier (hr : r < nranks) (hq : q < nranks) : s.returned r ≤ s.entered q := by
  cases hret : s.returned r with
  | zero => exact Nat.zero_le _
  | succ k =>
    have hbelow (r : ℕ) (hr : r < nranks) : r / 2 ^ nsteps nranks = 0 :=
      Nat.div_eq_of_lt (Nat.lt_of_lt_of_le hr (le_two_pow_nsteps nranks))
    have hlevel : k * span nranks + 5 * (nsteps nranks + 1) ≤ s.level nranks r := by
      rw [State.level, hret, Nat.succ_mul k]
      simp only [span]
      omega
    have hentered := hinv.group_entered hn (Nat.le_refl _) hr hlevel
      ((hbelow q hq).trans (hbelow r hr).symm)
    by_contra hnot
    have hle := entered_level hinv hq
    have hmul : s.entered q * span nranks ≤ k * span nranks := Nat.mul_le_mul_right _ (by omega)
    omega

theorem Inv.sound : Sound nranks s where
  barrier := fun _ hr _ hq => hinv.barrier hn hr hq
  clear := fun _ hr _ hpc => hinv.remote_clear hr hpc (.inr rfl)
  consumed := fun _ hr _ hpc => hinv.consumed hr hpc
  returns := fun _ hcalls => hinv.returns hcalls
  quiet := fun hout owner other => hinv.quiet hout owner other

end

/-! ## Other numbers of ranks -/

theorem head_of_level (hk : k < nsteps nranks) (hlevel : s.level nranks r = 5 * (k + 1)) :
    s.pc r = .head k ∧ s.returned r = 0 := by
  have hret : s.returned r = 0 := by
    by_contra hpos
    have hmul := Nat.mul_le_mul_right (span nranks) (Nat.one_le_iff_ne_zero.mpr hpos)
    simp only [State.level] at hlevel
    simp only [span] at hlevel hmul
    omega
  refine ⟨?_, hret⟩
  simp only [State.level, hret, Nat.zero_mul, Nat.zero_add] at hlevel
  cases hpc : s.pc r with
  | out =>
    simp only [hpc, Pc.depth] at hlevel
    omega
  | head step =>
    simp only [hpc, Pc.depth] at hlevel
    rw [show step = k by omega]
  | exch step op =>
    have hord := op.ord_le (isLower r step)
    simp only [hpc, Pc.depth] at hlevel
    omega

/-- The last rank below a power of two has no peer in the last step, and returns before the last
rank has entered. -/
theorem returns_early (hlow : 2 ^ m < nranks) (hhigh : nranks < 2 ^ (m + 1)) :
    ∃ s, Reachable nranks s ∧ s.returned (2 ^ m - 1) = 1 ∧ s.entered (nranks - 1) = 0 := by
  have hpos := Nat.two_pow_pos m
  have hm := lt_nsteps_of_lt hlow
  have hsteps : nsteps nranks = m + 1 := by
    by_contra hne
    have hlast : 2 ^ (m + 1) < nranks := two_pow_lt_of_lt_nsteps (by omega)
    omega
  have hinit : Inv nranks .init := inv_init
  obtain ⟨s, hrun, hlevel, hothers⟩ := hinit.exists_level (p := 2 ^ m)
    (g := m + 1) (Nat.le_of_lt hlow)
    (fun r hr step hstep _ => peer_lt_two_pow hr (Nat.lt_of_succ_lt_succ hstep))
    (fun r _ => by simp [State.level, State.init, Pc.depth])
  obtain ⟨hpc, hret⟩ := head_of_level hm (hlevel (2 ^ m - 1) (by omega))
  obtain ⟨hpc_last, hret_last⟩ := hothers (nranks - 1) (by omega)
  have hpeer : nranks ≤ peer (2 ^ m - 1) m := by
    have hlower : isLower (2 ^ m - 1) m = true := by
      rw [isLower_iff, Nat.div_eq_of_lt (by omega)]
    rw [peer_lower hlower]
    omega
  have hskip := Step.skip m hpc hm hpeer
  have hleave : Step nranks (s.goto (2 ^ m - 1) (.head (m + 1))) (2 ^ m - 1) _ :=
    .leave (by simp [State.goto, hsteps])
  have hne : nranks - 1 ≠ 2 ^ m - 1 := by omega
  refine ⟨_, (hrun.tail ⟨_, by omega, hskip⟩).tail ⟨_, by omega, hleave⟩, ?_, ?_⟩
  · simp [State.leave, State.goto, hret]
  · simp [State.entered, State.leave, State.goto, hne, hpc_last, hret_last, State.init]

theorem not_sound_of_early (h : s.returned r = 1) (hq : s.entered q = 0) (hr : r < nranks)
    (hqn : q < nranks) : ¬Sound nranks s := by
  intro hsound
  have hle := hsound.barrier r hr q hqn
  omega

theorem barrier_sound_iff (hn : 1 ≤ nranks) :
    (∀ s, Reachable nranks s → Sound nranks s) ↔ ∃ m, nranks = 2 ^ m := by
  constructor
  · intro hsound
    by_contra hnot
    have hlow : 2 ^ Nat.log 2 nranks < nranks := by
      have hle := Nat.pow_log_le_self 2 (Nat.one_le_iff_ne_zero.mp hn)
      have hne : 2 ^ Nat.log 2 nranks ≠ nranks := fun heq => hnot ⟨_, heq.symm⟩
      omega
    obtain ⟨s, hreach, hret, hentered⟩ :=
      returns_early hlow (Nat.lt_pow_succ_log_self Nat.one_lt_two nranks)
    exact not_sound_of_early hret hentered (by omega) (by omega) (hsound s hreach)
  · rintro ⟨m, hm⟩ s hreach
    exact (inv_init.run hreach).sound hm

theorem barrier_sound_iff_four : 1 ≤ 4 ∧ ((∀ s, Reachable 4 s → Sound 4 s) ↔ ∃ m, 4 = 2 ^ m) :=
  ⟨by decide, barrier_sound_iff (by decide)⟩

/-- Of three ranks the second returns without the third. -/
theorem not_sound_three : ∃ s, Reachable 3 s ∧ s.returned 1 = 1 ∧ s.entered 2 = 0 ∧ ¬Sound 3 s := by
  obtain ⟨s, hreach, hret, hentered⟩ :=
    returns_early (show 2 ^ 1 < 3 by decide) (by decide)
  exact ⟨s, hreach, hret, hentered, not_sound_of_early hret hentered (by decide) (by decide)⟩

end TorchComms.Algos.DeviceBarrier
