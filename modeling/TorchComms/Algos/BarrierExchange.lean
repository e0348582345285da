import TorchComms.Algos.DeviceBarrier
import TorchComms.Foundation.PingPong

/-! # The exchanges of the barrier

Two ranks that meet in a step of the barrier play ping and pong in it, call after call. What a rank
does in other steps, or with other ranks, does not touch their flags.
-/
namespace TorchComms.Algos.DeviceBarrier

open Function Foundation

/-- The operations of a step before this one. -/
def FlagOp.ord : Bool → FlagOp → ℕ
  | true, waitReset => 0
  | true, setStep => 1
  | true, waitStep => 2
  | true, setReset => 3
  | false, waitStep => 0
  | false, setReset => 1
  | false, waitReset => 2
  | false, setStep => 3

/-- The operations of step `t` that a rank has done in its call. -/
def Pc.within (lower : Bool) (t : ℕ) : Pc → ℕ
  | out => 0
  | head step => if t < step then 4 else 0
  | exch step op => if t < step then 4 else if t = step then op.ord lower else 0

/-- The operations of step `t` that a rank has done in all calls. -/
def State.place (s : State) (t r : ℕ) : ℕ := 4 * s.returned r + (s.pc r).within (isLower r t) t

/-- The flag of a step that has been stored in the `k`-th call. -/
def stepFlag (t k : ℕ) : Flag := ⟨t, k⟩

def IsReset (f : Flag) : Prop := f.step = CTRAN_ALGO_STEP_RESET

/-- The two ranks that meet in step `t` over the pair of their flags. -/
def Paired (s : State) (t l h : ℕ) : Prop :=
  PingPong (stepFlag t) IsReset (s.place t l) (s.place t h) (s.sync h l) (s.sync l h)

/-- Two ranks that meet in a step, the lower one first. -/
structure Meet (nranks t l h : ℕ) : Prop where
  lower : isLower l t = true
  peer : h = l + 2 ^ t
  bound : h < nranks

structure Inv (nranks : ℕ) (s : State) : Prop where
  head : ∀ r < nranks, ∀ step, s.pc r = .head step → step ≤ nsteps nranks
  exch : ∀ r < nranks, ∀ step op, s.pc r = .exch step op → peer r step < nranks
  paired : ∀ t l h, Meet nranks t l h → Paired s t l h
  others : ∀ owner other, ¬IsReset (s.sync owner other) →
    ∃ t, Meet nranks t owner other ∨ Meet nranks t other owner

variable {nranks t l h r step : ℕ} {s s' : State} {op : FlagOp}

theorem inv_init : Inv nranks .init where
  head := by simp [State.init]
  exch := by simp [State.init]
  paired := fun _ _ _ _ => PingPong.init rfl rfl
  others := fun _ _ hnot => absurd rfl hnot

/-! ## Meetings -/

section

variable (hm : Meet nranks t l h)
include hm

theorem Meet.upper : isLower h t = false := by
  rw [hm.peer]
  exact isLower_add hm.lower

theorem Meet.peer_l : DeviceBarrier.peer l t = h := by
  rw [peer_lower hm.lower, hm.peer]

theorem Meet.peer_h : DeviceBarrier.peer h t = l := by
  rw [hm.peer, peer_add hm.lower]

theorem Meet.lt : l < h := by
  have hpos := Nat.two_pow_pos t
  have hpeer := hm.peer
  omega

theorem Meet.lt_nsteps : t < nsteps nranks := by
  have hpeer := hm.peer
  have hbound := hm.bound
  exact lt_nsteps_of_lt (by omega)

theorem Meet.unique {t' : ℕ} (hm' : Meet nranks t' l h) : t = t' := by
  have hpow : 2 ^ t = 2 ^ t' := by
    have hpeer := hm.peer
    have hpeer' := hm'.peer
    omega
  exact Nat.pow_right_injective (Nat.le_refl 2) hpow

theorem Meet.eq_of_mem {l' h' q : ℕ} (hm' : Meet nranks t l' h')
    (hq : q = l ∨ q = h) (hq' : q = l' ∨ q = h') : l = l' ∧ h = h' := by
  have hl := hm.lower
  have hh := hm.upper
  have hl' := hm'.lower
  have hh' := hm'.upper
  have hpeer := hm.peer
  have hpeer' := hm'.peer
  rcases hq with rfl | rfl
  · rcases hq' with rfl | rfl
    · exact ⟨rfl, by omega⟩
    · simp [hl] at hh'
  · rcases hq' with rfl | rfl
    · simp [hh] at hl'
    · exact ⟨by omega, rfl⟩

end

theorem exists_meet (hr : r < nranks) (hpeer : peer r step < nranks) :
    Meet nranks step r (peer r step) ∨ Meet nranks step (peer r step) r := by
  cases hlow : isLower r step with
  | true =>
    have heq := peer_lower hlow
    exact .inl ⟨hlow, heq, hpeer⟩
  | false =>
    obtain ⟨lower, hlower, rfl⟩ := exists_lower hlow
    rw [peer_add hlower]
    exact .inr ⟨hlower, rfl, hr⟩

/-! ## Steps that leave the flags alone -/

theorem place_of_ne {q : ℕ} (hpc : s'.pc q = s.pc q) (hret : s'.returned q = s.returned q) :
    s'.place t q = s.place t q := by
  rw [State.place, State.place, hpc, hret]

theorem Inv.silent (hinv : Inv nranks s)
    (hsync : s'.sync = s.sync) (hpc : ∀ q, q ≠ r → s'.pc q = s.pc q)
    (hret : ∀ q, q ≠ r → s'.returned q = s.returned q)
    (hplace : ∀ t, t < nsteps nranks → peer r t < nranks → s'.place t r = s.place t r)
    (hhead : ∀ step, s'.pc r = .head step → step ≤ nsteps nranks)
    (hexch : ∀ step op, s'.pc r = .exch step op → peer r step < nranks) : Inv nranks s' where
  head := by
    intro q hq step hstep
    by_cases hqr : q = r
    · subst hqr
      exact hhead step hstep
    · exact hinv.head q hq step (by rwa [← hpc q hqr])
  exch := by
    intro q hq step op hstep
    by_cases hqr : q = r
    · subst hqr
      exact hexch step op hstep
    · exact hinv.exch q hq step op (by rwa [← hpc q hqr])
  paired := by
    intro t l h hm
    have hl : s'.place t l = s.place t l := by
      by_cases hlr : l = r
      · subst hlr
        exact hplace t hm.lt_nsteps (by rw [hm.peer_l]; exact hm.bound)
      · exact place_of_ne (hpc l hlr) (hret l hlr)
    have hh : s'.place t h = s.place t h := by
      by_cases hhr : h = r
      · subst hhr
        exact hplace t hm.lt_nsteps (by rw [hm.peer_h]; exact Nat.lt_trans hm.lt hm.bound)
      · exact place_of_ne (hpc h hhr) (hret h hhr)
    rw [Paired, hl, hh, hsync]
    exact hinv.paired t l h hm
  others := by
    rw [hsync]
    exact hinv.others

/-! ## Flag operations -/

theorem within_behind_self (lower : Bool) (step : ℕ) (op : FlagOp) :
    (Pc.behind lower step op).within lower step = (Pc.exch step op).within lower step + 1 := by
  cases lower <;> cases op <;> simp [Pc.behind, FlagOp.next, Pc.within, FlagOp.ord]

theorem within_behind_of_ne {lower lower' : Bool} (ht : t ≠ step) :
    (Pc.behind lower' step op).within lower t = (Pc.exch step op).within lower t := by
  have hlt : t < step + 1 ↔ t < step := by omega
  cases hnext : op.next lower' with
  | some op' => simp [Pc.behind, hnext, Pc.within, ht]
  | none => simp [Pc.behind, hnext, Pc.within, ht, hlt]

theorem Inv.flagOp (hinv : Inv nranks s) (hr : r < nranks) (hpc : s.pc r = .exch step op)
    {sync : ℕ → ℕ → Flag} (hm : Meet nranks step l h) (hlh : r = l ∨ r = h)
    (hsync : ∀ owner other, ¬(owner = l ∧ other = h) → ¬(owner = h ∧ other = l) →
      sync owner other = s.sync owner other)
    (hpaired : Paired ({ s with sync := sync }.after r step op) step l h) :
    Inv nranks ({ s with sync := sync }.after r step op) where
  head := by
    intro q hq i hi
    by_cases hqr : q = r
    · subst hqr
      simp only [State.after, State.goto, update_self, Pc.behind] at hi
      split at hi
      · cases hi
      · cases hi
        exact hm.lt_nsteps
    · exact hinv.head q hq i (by simpa [State.after, State.goto, hqr] using hi)
  exch := by
    intro q hq i o hi
    by_cases hqr : q = r
    · subst hqr
      simp only [State.after, State.goto, update_self, Pc.behind] at hi
      split at hi
      · cases hi
        exact hinv.exch q hr step op hpc
      · cases hi
    · exact hinv.exch q hq i o (by simpa [State.after, State.goto, hqr] using hi)
  paired := by
    intro t l' h' hm'
    by_cases hsame : l' = l ∧ h' = h
    · obtain ⟨rfl, rfl⟩ := hsame
      rwa [hm'.unique hm]
    · have hplace (q : ℕ) (hq : q = l' ∨ q = h') :
          ({ s with sync := sync }.after r step op).place t q = s.place t q := by
        by_cases hqr : q = r
        · subst hqr
          have ht : t ≠ step := by
            rintro rfl
            exact hsame (hm'.eq_of_mem hm hq hlh)
          simp [State.place, State.after, State.goto, hpc, within_behind_of_ne ht]
        · exact place_of_ne (by simp [State.after, State.goto, hqr]) rfl
      have hlt := hm.lt
      have hlt' := hm'.lt
      rw [Paired, hplace l' (.inl rfl), hplace h' (.inr rfl)]
      simp only [State.after, State.goto]
      rw [hsync h' l' (by omega) (by omega), hsync l' h' (by omega) (by omega)]
      exact hinv.paired t l' h' hm'
  others := by
    intro owner other hnot
    by_cases hlh : owner = l ∧ other = h
    · exact ⟨step, .inl (by rwa [hlh.1, hlh.2])⟩
    · by_cases hhl : owner = h ∧ other = l
      · exact ⟨step, .inr (by rwa [hhl.1, hhl.2])⟩
      · apply hinv.others
        rwa [← hsync owner other hlh hhl]

section Roles

variable {sync : ℕ → ℕ → Flag} {ping pong : Flag}

theorem place_mod (hpc : s.pc r = .exch step op) :
    s.place step r = 4 * s.returned r + op.ord (isLower r step) := by
  simp [State.place, hpc, Pc.within]

theorem place_after (hpc : s.pc r = .exch step op) :
    ({ s with sync := sync }.after r step op).place step r = s.place step r + 1 := by
  have hself := within_behind_self (isLower r step) step op
  simp only [State.place, State.after, State.goto, update_self, hpc, hself]
  omega

theorem place_after_of_ne {q : ℕ} (hqr : q ≠ r) :
    ({ s with sync := sync }.after r step op).place t q = s.place t q :=
  place_of_ne (by simp [State.after, State.goto, hqr]) rfl

theorem paired_lower (hm : Meet nranks step l h) (hpc : s.pc l = .exch step op)
    (hping : sync h l = ping) (hpong : sync l h = pong)
    (hpp : PingPong (stepFlag step) IsReset (s.place step l + 1) (s.place step h) ping pong) :
    Paired ({ s with sync := sync }.after l step op) step l h := by
  rw [Paired, place_after hpc, place_after_of_ne (Nat.ne_of_gt hm.lt)]
  simpa [State.after, State.goto, hping, hpong] using hpp

theorem paired_upper (hm : Meet nranks step l h) (hpc : s.pc h = .exch step op)
    (hping : sync h l = ping) (hpong : sync l h = pong)
    (hpp : PingPong (stepFlag step) IsReset (s.place step l) (s.place step h + 1) ping pong) :
    Paired ({ s with sync := sync }.after h step op) step l h := by
  rw [Paired, place_after hpc, place_after_of_ne (Nat.ne_of_lt hm.lt)]
  simpa [State.after, State.goto, hping, hpong] using hpp

theorem not_isReset {f : Flag} (h : f.step = step) : ¬IsReset f := by
  rw [IsReset, h, CTRAN_ALGO_STEP_RESET]
  omega

end Roles

theorem Inv.waitReset (hinv : Inv nranks s) (hr : r < nranks)
    (hpc : s.pc r = .exch step .waitReset) : Inv nranks (s.after r step .waitReset) := by
  have hplace := place_mod hpc
  rcases exists_meet hr (hinv.exch r hr step _ hpc) with hm | hm
  · have hpp := hinv.paired step _ _ hm
    rw [hm.lower] at hplace
    refine hinv.flagOp hr hpc hm (.inl rfl) (fun _ _ _ _ => rfl) (paired_lower hm hpc rfl rfl ?_)
    exact hpp.lower_silent (by simp [hplace, FlagOp.ord]) (by simp [hplace, FlagOp.ord])
  · have hpp := hinv.paired step _ _ hm
    rw [hm.upper] at hplace
    refine hinv.flagOp hr hpc hm (.inr rfl) (fun _ _ _ _ => rfl) (paired_upper hm hpc rfl rfl ?_)
    exact hpp.upper_silent (by simp [hplace, FlagOp.ord]) (by simp [hplace, FlagOp.ord])

theorem Inv.waitStep (hinv : Inv nranks s) (hr : r < nranks)
    (hpc : s.pc r = .exch step .waitStep) (hload : (s.sync r (peer r step)).step = step) :
    Inv nranks (s.after r step .waitStep) := by
  have hplace := place_mod hpc
  rcases exists_meet hr (hinv.exch r hr step _ hpc) with hm | hm
  · have hpp := hinv.paired step _ _ hm
    rw [hm.lower] at hplace
    refine hinv.flagOp hr hpc hm (.inl rfl) (fun _ _ _ _ => rfl) (paired_lower hm hpc rfl rfl ?_)
    exact hpp.lower_silent (fun _ => not_isReset hload) (by simp [hplace, FlagOp.ord])
  · have hpp := hinv.paired step _ _ hm
    rw [hm.upper] at hplace
    refine hinv.flagOp hr hpc hm (.inr rfl) (fun _ _ _ _ => rfl) (paired_upper hm hpc rfl rfl ?_)
    exact hpp.upper_silent (fun _ => not_isReset hload) (by simp [hplace, FlagOp.ord])

theorem sync_update_of_ne {v : Flag} {a b l h : ℕ} (hab : a = l ∧ b = h ∨ a = h ∧ b = l)
    (owner other : ℕ) (hlh : ¬(owner = l ∧ other = h)) (hhl : ¬(owner = h ∧ other = l)) :
    update s.sync a (update (s.sync a) b v) owner other = s.sync owner other := by
  by_cases howner : owner = a
  · have hother : other ≠ b := by
      rintro rfl
      rcases hab with ⟨rfl, rfl⟩ | ⟨rfl, rfl⟩
      · exact hlh ⟨howner, rfl⟩
      · exact hhl ⟨howner, rfl⟩
    simp [howner, hother]
  · simp [howner]

section

variable (hinv : Inv nranks s)
include hinv

theorem Inv.setStep (hr : r < nranks) (hpc : s.pc r = .exch step .setStep) :
    Inv nranks ((s.devSyncSetStep r (peer r step) r step).after r step .setStep) := by
  have hplace := place_mod hpc
  rcases exists_meet hr (hinv.exch r hr step _ hpc) with hm | hm
  · have hpp := hinv.paired step _ _ hm
    have hne := Nat.ne_of_lt hm.lt
    rw [hm.lower] at hplace
    refine hinv.flagOp hr hpc hm (.inl rfl) (sync_update_of_ne (.inr ⟨rfl, rfl⟩))
      (paired_lower hm hpc ?_ ?_ (hpp.lower_raise (by simp [hplace, FlagOp.ord])))
    · have hcall : PingPong.pings (s.place step r + 1) = s.returned r + 1 := by
        simp only [hplace, FlagOp.ord, PingPong.pings]
        omega
      simp [stepFlag, hcall]
    · simp [hne]
  · have hpp := hinv.paired step _ _ hm
    have hne := Nat.ne_of_gt hm.lt
    rw [hm.upper] at hplace
    refine hinv.flagOp hr hpc hm (.inr rfl) (sync_update_of_ne (.inl ⟨rfl, rfl⟩))
      (paired_upper hm hpc ?_ ?_ (hpp.upper_raise (by simp [hplace, FlagOp.ord])))
    · simp [hne]
    · have hcall : PingPong.pongs (s.place step r + 1) = s.returned r + 1 := by
        simp only [hplace, FlagOp.ord, PingPong.pongs]
        omega
      simp [stepFlag, hcall]

theorem Inv.setReset (hr : r < nranks) (hpc : s.pc r = .exch step .setReset) :
    Inv nranks ((s.devSyncSetStep r r (peer r step) CTRAN_ALGO_STEP_RESET).after r step
      .setReset) := by
  have hplace := place_mod hpc
  rcases exists_meet hr (hinv.exch r hr step _ hpc) with hm | hm
  · have hpp := hinv.paired step _ _ hm
    have hne := Nat.ne_of_gt hm.lt
    rw [hm.lower] at hplace
    refine hinv.flagOp hr hpc hm (.inl rfl) (sync_update_of_ne (.inl ⟨rfl, rfl⟩))
      (paired_lower hm hpc ?_ rfl (hpp.lower_clear (by simp [hplace, FlagOp.ord]) ?_))
    · simp [hne]
    · simp [IsReset]
  · have hpp := hinv.paired step _ _ hm
    have hne := Nat.ne_of_lt hm.lt
    rw [hm.upper] at hplace
    refine hinv.flagOp hr hpc hm (.inr rfl) (sync_update_of_ne (.inr ⟨rfl, rfl⟩))
      (paired_upper hm hpc rfl ?_ (hpp.upper_clear (by simp [hplace, FlagOp.ord]) ?_))
    · simp [hne]
    · simp [IsReset]

/-! ## Steps and runs -/

theorem Inv.enter (hpc : s.pc r = .out) : Inv nranks (s.goto r (.head 0)) := by
  refine hinv.silent (r := r) rfl ?_ ?_ ?_ ?_ ?_
  · exact fun q hq => by simp [State.goto, hq]
  · exact fun q _ => rfl
  · intro t _ _
    simp [State.place, State.goto, hpc, Pc.within]
  · intro step hstep
    simp [State.goto] at hstep
    omega
  · simp [State.goto]

theorem Inv.skip (hpc : s.pc r = .head step) (hstep : step < nsteps nranks)
    (hpeer : nranks ≤ peer r step) : Inv nranks (s.goto r (.head (step + 1))) := by
  refine hinv.silent (r := r) rfl ?_ ?_ ?_ ?_ ?_
  · exact fun q hq => by simp [State.goto, hq]
  · exact fun q _ => rfl
  · intro t _ ht
    have hne : t ≠ step := by
      rintro rfl
      omega
    have hlt : t < step + 1 ↔ t < step := by omega
    simp [State.place, State.goto, hpc, Pc.within, hlt]
  · intro i hi
    simp [State.goto] at hi
    omega
  · simp [State.goto]

theorem Inv.exchange (hpc : s.pc r = .head step) (hpeer : peer r step < nranks) :
    Inv nranks (s.goto r (.exch step (.first (isLower r step)))) := by
  refine hinv.silent (r := r) rfl ?_ ?_ ?_ ?_ ?_
  · exact fun q hq => by simp [State.goto, hq]
  · exact fun q _ => rfl
  · intro t _ _
    by_cases ht : t = step
    · subst ht
      cases hlow : isLower r t <;>
        simp [State.place, State.goto, hpc, Pc.within, FlagOp.first, FlagOp.ord, hlow]
    · simp [State.place, State.goto, hpc, Pc.within, ht]
  · simp [State.goto]
  · intro i op hi
    simp [State.goto] at hi
    rwa [← hi.1]

theorem Inv.leave (hpc : s.pc r = .head (nsteps nranks)) : Inv nranks (s.leave r) := by
  refine hinv.silent (r := r) rfl ?_ ?_ ?_ ?_ ?_
  · exact fun q hq => by simp [State.leave, hq]
  · exact fun q hq => by simp [State.leave, hq]
  · intro t ht _
    simp only [State.place, State.leave, hpc, Pc.within, update_self, ht, if_true]
    omega
  · simp [State.leave]
  · simp [State.leave]

theorem Inv.moves (hr : r < nranks) (hstep : Step nranks s r s') : Inv nranks s' := by
  cases hstep with
  | enter hpc => exact hinv.enter hpc
  | skip step hpc hlt hpeer => exact hinv.skip hpc hlt hpeer
  | exchange step hpc _ hpeer => exact hinv.exchange hpc hpeer
  | waitReset step hpc _ => exact hinv.waitReset hr hpc
  | setStep step hpc => exact hinv.setStep hr hpc
  | waitStep step hpc hload => exact hinv.waitStep hr hpc hload
  | setReset step hpc => exact hinv.setReset hr hpc
  | leave hpc => exact hinv.leave hpc

theorem Inv.run (hrun : Relation.ReflTransGen (Moves nranks) s s') : Inv nranks s' := by
  induction hrun with
  | refl => exact hinv
  | tail _ hmove ih =>
    obtain ⟨r, hr, hstep⟩ := hmove
    exact ih.moves hr hstep

end

end TorchComms.Algos.DeviceBarrier
