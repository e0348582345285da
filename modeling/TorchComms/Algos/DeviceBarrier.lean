import Mathlib.Algebra.Ring.Nat
import Mathlib.Logic.Function.Basic
import Mathlib.Logic.Relation

/-! # The device barrier

`barrier` walks steps with groups of doubling size. In a step each rank of the lower half of a group
meets a rank of the higher half over two flags, one in the memory of each of them.
-/
namespace TorchComms.Algos.DeviceBarrier

open Function Relation

def CTRAN_ALGO_STEP_RESET : ℤ := -1

/-- The loop `while ((1 << nsteps) < nranks)`. -/
def nstepsFrom (nranks : ℕ) : ℕ → ℕ → ℕ
  | 0, nsteps => nsteps
  | fuel + 1, nsteps =>
    if 1 <<< nsteps < nranks then nstepsFrom nranks fuel (nsteps + 1) else nsteps

def nsteps (nranks : ℕ) : ℕ := nstepsFrom nranks nranks 0

def groupSize (step : ℕ) : ℕ := 1 <<< (step + 1)

def group (rank step : ℕ) : ℕ := rank / groupSize step

def groupRank (rank step : ℕ) : ℕ := rank - group rank step * groupSize step

/-- The rank is in the lower half of its group. -/
def isLower (rank step : ℕ) : Bool := groupRank rank step < groupSize step / 2

def peer (rank step : ℕ) : ℕ :=
  if isLower rank step then
    group rank step * groupSize step + groupRank rank step + groupSize step / 2
  else
    group rank step * groupSize step + groupRank rank step - groupSize step / 2

/-- The flag operations of a step. `waitReset` and `setStep` are on the remote flag, the other two
on the local one. -/
inductive FlagOp
  | waitReset
  | setStep
  | waitStep
  | setReset
  deriving DecidableEq, Repr

namespace FlagOp

/-- The lower half sends its ping first, the higher half first waits for it. -/
def first : Bool → FlagOp
  | true => waitReset
  | false => waitStep

def next : Bool → FlagOp → Option FlagOp
  | true, waitReset => setStep
  | true, setStep => waitStep
  | true, waitStep => setReset
  | true, setReset => none
  | false, waitStep => setReset
  | false, setReset => waitReset
  | false, waitReset => setStep
  | false, setStep => none

end FlagOp

/-- A rank is outside of the barrier, at the head of its loop, or before a flag operation. -/
inductive Pc
  | out
  | head (step : ℕ)
  | exch (step : ℕ) (op : FlagOp)
  deriving DecidableEq, Repr

/-- Behind a flag operation. -/
def Pc.behind (lower : Bool) (step : ℕ) (op : FlagOp) : Pc :=
  match op.next lower with
  | some op' => exch step op'
  | none => head (step + 1)

/-- A `stepOnSameBlockIdx`. The call of the rank that stored it last is a ghost. -/
structure Flag where
  step : ℤ
  call : ℕ
  deriving DecidableEq, Repr

/-- `sync owner other` is `allPeerSyncMap[owner][other]` of the block: in the memory of `owner`, and
written by `other`. -/
structure State where
  returned : ℕ → ℕ
  pc : ℕ → Pc
  sync : ℕ → ℕ → Flag

namespace State

def init : State where
  returned := fun _ => 0
  pc := fun _ => .out
  sync := fun _ _ => ⟨CTRAN_ALGO_STEP_RESET, 0⟩

/-- The calls that a rank has entered. -/
def entered (s : State) (r : ℕ) : ℕ := if s.pc r = .out then s.returned r else s.returned r + 1

def goto (s : State) (r : ℕ) (pc : Pc) : State := { s with pc := update s.pc r pc }

def leave (s : State) (r : ℕ) : State :=
  { s with pc := update s.pc r .out, returned := update s.returned r (s.returned r + 1) }

def after (s : State) (r step : ℕ) (op : FlagOp) : State :=
  s.goto r (.behind (isLower r step) step op)

def devSyncSetStep (s : State) (r owner other : ℕ) (val : ℤ) : State :=
  { s with sync := update s.sync owner (update (s.sync owner) other ⟨val, s.returned r + 1⟩) }

end State

/-- A step of rank `r`. The loads of a wait that does not pass are left out. -/
inductive Step (nranks : ℕ) (s : State) (r : ℕ) : State → Prop
  | enter (hpc : s.pc r = .out) : Step nranks s r (s.goto r (.head 0))
  | skip (step : ℕ) (hpc : s.pc r = .head step) (hstep : step < nsteps nranks)
      (hpeer : nranks ≤ peer r step) : Step nranks s r (s.goto r (.head (step + 1)))
  | exchange (step : ℕ) (hpc : s.pc r = .head step) (hstep : step < nsteps nranks)
      (hpeer : peer r step < nranks) :
      Step nranks s r (s.goto r (.exch step (.first (isLower r step))))
  | waitReset (step : ℕ) (hpc : s.pc r = .exch step .waitReset)
      (hload : (s.sync (peer r step) r).step = CTRAN_ALGO_STEP_RESET) :
      Step nranks s r (s.after r step .waitReset)
  | setStep (step : ℕ) (hpc : s.pc r = .exch step .setStep) :
      Step nranks s r ((s.devSyncSetStep r (peer r step) r step).after r step .setStep)
  | waitStep (step : ℕ) (hpc : s.pc r = .exch step .waitStep)
      (hload : (s.sync r (peer r step)).step = step) :
      Step nranks s r (s.after r step .waitStep)
  | setReset (step : ℕ) (hpc : s.pc r = .exch step .setReset) :
      Step nranks s r
        ((s.devSyncSetStep r r (peer r step) CTRAN_ALGO_STEP_RESET).after r step .setReset)
  | leave (hpc : s.pc r = .head (nsteps nranks)) : Step nranks s r (s.leave r)

/-- A step of one of the ranks. -/
def Moves (nranks : ℕ) (s s' : State) : Prop := ∃ r < nranks, Step nranks s r s'

def Reachable (nranks : ℕ) (s : State) : Prop := ReflTransGen (Moves nranks) .init s

/-- What the barrier promises in a state. -/
structure Sound (nranks : ℕ) (s : State) : Prop where
  /-- No rank returns from a call that another rank has not entered. -/
  barrier : ∀ r < nranks, ∀ q < nranks, s.returned r ≤ s.entered q
  /-- A step is stored where the last one has been consumed. -/
  clear : ∀ r < nranks, ∀ step, s.pc r = .exch step .setStep →
    (s.sync (peer r step) r).step = CTRAN_ALGO_STEP_RESET
  /-- A rank resets the step that its peer has stored in the same call. -/
  consumed : ∀ r < nranks, ∀ step, s.pc r = .exch step .setReset →
    s.sync r (peer r step) = ⟨step, s.returned r + 1⟩
  /-- All can make and return from the same number of calls. -/
  returns : ∀ calls, (∀ r < nranks, s.entered r ≤ calls) → ∃ t, ReflTransGen (Moves nranks) s t ∧
    ∀ r < nranks, t.pc r = .out ∧ t.returned r = calls
  quiet : (∀ r < nranks, s.pc r = .out) →
    ∀ owner other, (s.sync owner other).step = CTRAN_ALGO_STEP_RESET

/-! ## The shape of the hypercube -/

variable {nranks rank step k : ℕ}

theorem nstepsFrom_spec (fuel i : ℕ) (hfuel : nranks ≤ 2 ^ (fuel + i))
    (hbelow : ∀ j < i, 2 ^ j < nranks) :
    nranks ≤ 2 ^ nstepsFrom nranks fuel i ∧
      ∀ j < nstepsFrom nranks fuel i, 2 ^ j < nranks := by
  induction fuel generalizing i with
  | zero => exact ⟨by simpa [nstepsFrom] using hfuel, hbelow⟩
  | succ fuel ih =>
    rw [nstepsFrom, Nat.one_shiftLeft]
    split_ifs with hlt
    · apply ih
      · rwa [show fuel + (i + 1) = fuel + 1 + i by omega]
      · intro j hj
        by_cases hlast : j = i
        · rwa [hlast]
        · exact hbelow j (by omega)
    · exact ⟨Nat.le_of_not_lt hlt, hbelow⟩

theorem le_two_pow_nsteps (nranks : ℕ) : nranks ≤ 2 ^ nsteps nranks :=
  (nstepsFrom_spec nranks 0 (Nat.le_of_lt Nat.lt_two_pow_self) (by omega)).1

theorem two_pow_lt_of_lt_nsteps (h : step < nsteps nranks) : 2 ^ step < nranks :=
  (nstepsFrom_spec nranks 0 (Nat.le_of_lt Nat.lt_two_pow_self) (by omega)).2 step h

theorem lt_nsteps_of_lt (h : 2 ^ step < nranks) : step < nsteps nranks := by
  have hle := le_two_pow_nsteps nranks
  exact (Nat.pow_lt_pow_iff_right Nat.one_lt_two).mp (Nat.lt_of_lt_of_le h hle)

theorem groupRank_eq (rank step : ℕ) : groupRank rank step = rank % (2 ^ step * 2) := by
  have hdiv := Nat.div_add_mod' rank (2 ^ step * 2)
  simp only [groupRank, group, groupSize, Nat.one_shiftLeft, Nat.pow_succ]
  omega

theorem isLower_iff : isLower rank step = true ↔ rank / 2 ^ step % 2 = 0 := by
  have hpos : 0 < 2 ^ step := Nat.two_pow_pos step
  have hmod := Nat.mod_mul (x := rank) (a := 2 ^ step) (b := 2)
  have hlt := Nat.mod_lt rank hpos
  rw [isLower, groupRank_eq, hmod, decide_eq_true_iff, groupSize, Nat.one_shiftLeft, Nat.pow_succ,
    Nat.mul_div_cancel _ Nat.two_pos]
  rcases Nat.mod_two_eq_zero_or_one (rank / 2 ^ step) with h | h
  · simp [h, hlt]
  · simp [h]

theorem peer_eq (rank step : ℕ) :
    peer rank step = if isLower rank step then rank + 2 ^ step else rank - 2 ^ step := by
  have hsum : group rank step * groupSize step + groupRank rank step = rank := by
    have hdiv := Nat.div_mul_le_self rank (groupSize step)
    rw [groupRank, group]
    omega
  have hhalf : groupSize step / 2 = 2 ^ step := by
    rw [groupSize, Nat.one_shiftLeft, Nat.pow_succ, Nat.mul_div_cancel _ Nat.two_pos]
  rw [peer, hsum, hhalf]

section

variable (h : isLower rank step = true)
include h

theorem peer_lower : peer rank step = rank + 2 ^ step := by
  rw [peer_eq, if_pos h]

theorem isLower_add : isLower (rank + 2 ^ step) step = false := by
  rw [isLower_iff] at h
  rw [Bool.eq_false_iff, Ne, isLower_iff, Nat.add_div_right _ (Nat.two_pow_pos step)]
  omega

theorem peer_add : peer (rank + 2 ^ step) step = rank := by
  rw [peer_eq, isLower_add h]
  simp

end

theorem exists_lower (h : isLower rank step = false) :
    ∃ lower, isLower lower step = true ∧ rank = lower + 2 ^ step := by
  rw [Bool.eq_false_iff, Ne, isLower_iff] at h
  have hge : 2 ^ step ≤ rank := by
    by_contra hlt
    rw [Nat.div_eq_of_lt (Nat.lt_of_not_le hlt)] at h
    exact h rfl
  refine ⟨rank - 2 ^ step, ?_, by omega⟩
  rw [Nat.div_eq_sub_div (Nat.two_pow_pos step) hge] at h
  rw [isLower_iff]
  omega

theorem half_eq_or_peer {q : ℕ} (h : q / 2 ^ (step + 1) = rank / 2 ^ (step + 1)) :
    q / 2 ^ step = rank / 2 ^ step ∨ q / 2 ^ step = peer rank step / 2 ^ step := by
  rw [Nat.pow_succ, ← Nat.div_div_eq_div_mul, ← Nat.div_div_eq_div_mul] at h
  have hpos := Nat.two_pow_pos step
  cases hlow : isLower rank step with
  | true =>
    have heven := isLower_iff.mp hlow
    rw [peer_lower hlow, Nat.add_div_right _ hpos]
    omega
  | false =>
    obtain ⟨lower, hlower, rfl⟩ := exists_lower hlow
    have heven := isLower_iff.mp hlower
    rw [peer_add hlower, Nat.add_div_right _ hpos] at *
    omega

theorem peer_group (rank step : ℕ) : peer rank step / 2 ^ (step + 1) = rank / 2 ^ (step + 1) := by
  have hpos := Nat.two_pow_pos step
  rw [Nat.pow_succ, ← Nat.div_div_eq_div_mul, ← Nat.div_div_eq_div_mul]
  cases hlow : isLower rank step with
  | true =>
    have heven := isLower_iff.mp hlow
    rw [peer_lower hlow, Nat.add_div_right _ hpos]
    omega
  | false =>
    obtain ⟨lower, hlower, rfl⟩ := exists_lower hlow
    have heven := isLower_iff.mp hlower
    rw [peer_add hlower, Nat.add_div_right _ hpos]
    omega

theorem peer_lt_two_pow {m : ℕ} (hrank : rank < 2 ^ m) (hstep : step < m) :
    peer rank step < 2 ^ m := by
  obtain ⟨d, rfl⟩ := Nat.exists_eq_add_of_lt hstep
  have hpow : 2 ^ (step + d + 1) = 2 ^ (step + 1) * 2 ^ d := by
    rw [← Nat.pow_add]
    congr 1
    omega
  rw [hpow] at hrank ⊢
  rw [Nat.mul_comm, ← Nat.div_lt_iff_lt_mul (Nat.two_pow_pos _)] at hrank ⊢
  rwa [peer_group]

end TorchComms.Algos.DeviceBarrier
