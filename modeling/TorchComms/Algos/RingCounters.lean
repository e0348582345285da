import TorchComms.Algos.ReduceScatterRing
import TorchComms.Foundation.Rotation

/-! # Where the ranks of the ring are

A rank is at the i-th step of the r-th round. Its counters follow from the number of that step and
from its phase.
-/
namespace TorchComms.Algos.ReduceScatterRing

open Foundation

variable {c : Config} {p : Plan}

/-- A plan whose rounds cut the block up, each with a step for every other rank. -/
structure Good (c : Config) (p : Plan) : Prop where
  step_pos : 1 ≤ p.stepCount
  step_le : p.stepCount ≤ c.half
  rounds_pos : 1 ≤ p.nRounds
  last_lt : (p.nRounds - 1) * p.stepCount < c.recvcount
  le_last : c.recvcount ≤ p.nRounds * p.stepCount
  kernel_eq : p.nStepsInterReduce = p.nRounds * (c.nRanks - 1)

namespace Config

/-- The steps of all rounds. -/
def total (c : Config) (p : Plan) : ℕ := p.nRounds * (c.nRanks - 1)

/-- The elements of a chunk of the r-th round. -/
def roundCount (c : Config) (p : Plan) (r : ℕ) : ℕ := min p.stepCount (c.recvcount - r * p.stepCount)

theorem right_lt (r : ℕ) : c.right r < c.nRanks := Nat.mod_lt _ (by have := c.nRanks_ge; omega)

theorem left_lt (r : ℕ) : c.left r < c.nRanks := Nat.mod_lt _ (by have := c.nRanks_ge; omega)

variable {r : ℕ}

section

variable (hr : r < c.nRanks)
include hr

theorem right_left : c.right (c.left r) = r := next_back hr

theorem left_right : c.left (c.right r) = r := by
  have hn := c.nRanks_ge
  have hnext : back c.nRanks (c.right r) (0 + 1) = back c.nRanks r 0 := back_next hr (by omega)
  rwa [back_zero hr] at hnext

theorem left_ne : c.left r ≠ r :=
  back_ne hr Nat.one_pos c.nRanks_ge

theorem right_ne : c.right r ≠ r := by
  intro heq
  have hne := left_ne (c := c) (right_lt r)
  rw [left_right hr, heq] at hne
  exact hne rfl

end

end Config

/-- Whether a rank at this phase has issued the put, taken the notification and posted the
reduction of its step. -/
def Phase.put : Phase → ℕ
  | .waitNotify | .waitPut | .reduce => 1
  | .init | .waitRts | .finish => 0

def Phase.notice : Phase → ℕ
  | .waitPut | .reduce => 1
  | .init | .waitRts | .waitNotify | .finish => 0

def Phase.post : Phase → ℕ
  | .reduce => 1
  | .init | .waitRts | .waitNotify | .waitPut | .finish => 0

/-- The number of the step that a rank is at. -/
def Rank.number {α : Type} (c : Config) (x : Rank α) : ℕ := x.r * (c.nRanks - 1) + x.i

variable {α : Type} {rank : ℕ} {x y : Rank α}

theorem number_div (hi : x.i < c.nRanks - 1) :
    x.number c / (c.nRanks - 1) = x.r ∧ x.number c % (c.nRanks - 1) = x.i := by
  unfold Rank.number
  constructor
  · rw [Nat.mul_comm, Nat.mul_add_div (by omega), Nat.div_eq_of_lt hi, Nat.add_zero]
  · rw [Nat.mul_comm, Nat.mul_add_mod, Nat.mod_eq_of_lt hi]

theorem position_of_number (hx : x.i < c.nRanks - 1) (hy : y.i < c.nRanks - 1)
    (h : x.number c = y.number c) : x.r = y.r ∧ x.i = y.i := by
  obtain ⟨hxr, hxi⟩ := number_div hx
  obtain ⟨hyr, hyi⟩ := number_div hy
  rw [← hxr, ← hxi, h]
  exact ⟨hyr, hyi⟩

theorem number_succ_div (hi : x.i < c.nRanks - 1) :
    (x.number c + 1) / (c.nRanks - 1) = if x.i = c.nRanks - 2 then x.r + 1 else x.r := by
  unfold Rank.number
  split
  · rw [show x.r * (c.nRanks - 1) + x.i + 1 = (x.r + 1) * (c.nRanks - 1) by
      rw [Nat.succ_mul]; omega, Nat.mul_div_cancel _ (by omega)]
  · rw [Nat.add_assoc, Nat.mul_comm, Nat.mul_add_div (by omega), Nat.div_eq_of_lt (by omega),
      Nat.add_zero]

theorem r_lt (hi : x.i < c.nRanks - 1) (h : x.number c < c.total p) : x.r < p.nRounds := by
  rw [← (number_div hi).1]
  exact (Nat.div_lt_iff_lt_mul (by omega)).mpr h

/-- The counters of a rank in every state. -/
structure Counters (c : Config) (p : Plan) (rank : ℕ) (x : Rank α) : Prop where
  index : x.i < c.nRanks - 1
  running : x.phase ≠ .finish → x.number c < c.total p
  finished : x.phase = .finish → x.number c = c.total p
  begun : x.phase = .init → x.number c = 0
  redPos : x.redPos = back c.nRanks rank (x.i + 2)
  recvCount : x.recvCount = c.recvcount - x.r * p.stepCount
  issued : x.issued.length = x.number c + x.phase.put
  rtsTaken : x.rtsTaken = x.number c + x.phase.put
  consumed : x.consumed = x.number c + x.phase.notice
  posted : x.posted = x.number c + x.phase.post
  rtsSent : x.rtsSent = if x.phase = .init then 0 else min (x.number c + 1) (c.total p)
  atLeast : x.number c ≤ x.kernelSteps
  atMost : x.kernelSteps ≤ x.posted
  delivered : x.delivered ≤ x.issued.length
  idle : x.phase ≠ .waitNotify → x.phase ≠ .waitPut → x.delivered = x.issued.length

section

variable (h : Counters c p rank x)
include h

theorem Counters.count_eq : x.count p = c.roundCount p x.r := by
  unfold Rank.count Config.roundCount
  rw [h.recvCount]
  split <;> omega

theorem Counters.rtsSent_le : x.rtsSent ≤ x.number c + 1 := by
  rw [h.rtsSent]
  split <;> omega

/-! ### The steps of a rank -/

theorem Counters.at_phase {phase : Phase} (hphase : x.phase = phase) :
    x.issued.length = x.number c + phase.put ∧ x.rtsTaken = x.number c + phase.put ∧
      x.consumed = x.number c + phase.notice ∧ x.posted = x.number c + phase.post := by
  subst hphase
  exact ⟨h.issued, h.rtsTaken, h.consumed, h.posted⟩

theorem Counters.rtsSent_eq (hphase : x.phase ≠ .init) :
    x.rtsSent = min (x.number c + 1) (c.total p) := by
  rw [h.rtsSent, if_neg hphase]

theorem Counters.number_lt (hphase : x.phase ≠ .finish) :
    x.r < p.nRounds := r_lt h.index (h.running hphase)

end

theorem head_eq (r : ℕ) : Rank.head p r = if r < p.nRounds then .waitRts else .finish := rfl

@[simp] theorem head_put (r : ℕ) : (Rank.head p r).put = 0 := by
  rw [head_eq]
  split <;> rfl

@[simp] theorem head_notice (r : ℕ) : (Rank.head p r).notice = 0 := by
  rw [head_eq]
  split <;> rfl

@[simp] theorem head_post (r : ℕ) : (Rank.head p r).post = 0 := by
  rw [head_eq]
  split <;> rfl

theorem head_ne_init (r : ℕ) : Rank.head p r ≠ .init := by
  rw [head_eq]
  split <;> nofun

theorem head_ne_reduce (r : ℕ) : Rank.head p r ≠ .reduce := by
  rw [head_eq]
  split <;> nofun

section

variable (h : Counters c p rank x)
include h

theorem Counters.isendCtrl (hrounds : 1 ≤ p.nRounds)
    (hphase : x.phase = .init) : Counters c p rank (x.isendCtrl p) := by
  have hwait : Rank.head p 0 = .waitRts := if_pos hrounds
  obtain ⟨hissued, htaken, hconsumed, hposted⟩ := h.at_phase hphase
  have hnumber := h.begun hphase
  have hlt := h.running (by rw [hphase]; nofun)
  have hrts := h.rtsSent
  have hidle := h.idle (by rw [hphase]; nofun) (by rw [hphase]; nofun)
  rw [if_pos hphase] at hrts
  exact {
    __ := h
    running := fun _ => hlt
    finished := fun hf => absurd (hwait.symm.trans hf) nofun
    begun := fun _ => hnumber
    issued := by
      simp only [Rank.isendCtrl, head_put]
      exact hissued
    rtsTaken := by
      simp only [Rank.isendCtrl, head_put]
      exact htaken
    consumed := by
      simp only [Rank.isendCtrl, head_notice]
      exact hconsumed
    posted := by
      simp only [Rank.isendCtrl, head_post]
      exact hposted
    rtsSent := by
      change x.rtsSent + 1 = if Rank.head p 0 = .init then 0 else min (x.number c + 1) (c.total p)
      rw [if_neg (head_ne_init 0)]
      omega
    idle := fun _ _ => hidle }

theorem Counters.iput (hphase : x.phase = .waitRts) : Counters c p rank (x.iput c p rank) := by
  obtain ⟨hissued, htaken, hconsumed, hposted⟩ := h.at_phase hphase
  have hlength : (x.iput c p rank).issued.length = x.issued.length + 1 := List.length_append
  exact {
    __ := h
    running := fun _ => h.running (by rw [hphase]; nofun)
    finished := nofun
    begun := nofun
    issued := by
      rw [hlength]
      exact congrArg (· + 1) hissued
    rtsTaken := congrArg (· + 1) htaken
    consumed := hconsumed
    posted := hposted
    rtsSent := h.rtsSent_eq (by rw [hphase]; nofun)
    delivered := by
      rw [hlength]
      exact Nat.le_succ_of_le h.delivered
    idle := fun hnotify => absurd rfl hnotify }

theorem Counters.notified (hphase : x.phase = .waitNotify) : Counters c p rank x.notified := by
  obtain ⟨hissued, htaken, hconsumed, hposted⟩ := h.at_phase hphase
  exact {
    __ := h
    running := fun _ => h.running (by rw [hphase]; nofun)
    finished := nofun
    begun := nofun
    issued := hissued
    rtsTaken := htaken
    consumed := congrArg (· + 1) hconsumed
    posted := hposted
    rtsSent := h.rtsSent_eq (by rw [hphase]; nofun)
    idle := fun _ hput => absurd rfl hput }

theorem Counters.post (hphase : x.phase = .waitPut)
    (hdone : x.delivered = x.issued.length) : Counters c p rank (x.post c p rank) := by
  obtain ⟨hissued, htaken, hconsumed, hposted⟩ := h.at_phase hphase
  exact {
    __ := h
    running := fun _ => h.running (by rw [hphase]; nofun)
    finished := nofun
    begun := nofun
    issued := hissued
    rtsTaken := htaken
    consumed := hconsumed
    posted := congrArg (· + 1) hposted
    rtsSent := h.rtsSent_eq (by rw [hphase]; nofun)
    atMost := Nat.le_succ_of_le h.atMost
    idle := fun _ _ => hdone }

theorem Counters.sent (hlt : x.delivered < x.issued.length) : Counters c p rank x.sent where
  __ := h
  delivered := hlt
  idle hnotify hwait := absurd (h.idle hnotify hwait) hlt.ne

end

theorem Counters.kernel [Add α] (finish : α → α) (h : Counters c p rank x)
    (hposted : x.kernelSteps < x.posted) : Counters c p rank (x.kernel finish) := by
  unfold Rank.kernel
  split
  all_goals exact {
    __ := h
    atLeast := Nat.le_succ_of_le h.atLeast
    atMost := hposted }

theorem last_iff (hi : x.i < c.nRanks - 1) (hr : x.r < p.nRounds) :
    x.number c + 1 = c.total p ↔ x.i = c.nRanks - 2 ∧ x.r = p.nRounds - 1 := by
  unfold Rank.number Config.total
  constructor
  · intro heq
    have hle : p.nRounds * (c.nRanks - 1) ≤ (x.r + 1) * (c.nRanks - 1) := by
      rw [Nat.succ_mul]
      omega
    have hround := Nat.le_of_mul_le_mul_right hle (by omega)
    have hlast : p.nRounds = x.r + 1 := by omega
    rw [hlast, Nat.succ_mul] at heq
    omega
  · rintro ⟨hstep, hround⟩
    have hlast : p.nRounds = x.r + 1 := by omega
    rw [hlast, Nat.succ_mul]
    omega

theorem Phase.extras_le (phase : Phase) :
    phase.post ≤ phase.notice ∧ phase.notice ≤ phase.put ∧ phase.put ≤ 1 ∧
      (phase = .finish → phase.put = 0) := by
  cases phase <;> decide

section

variable (h : Counters c p rank x)
include h

theorem Counters.bounded :
    x.number c ≤ c.total p ∧ x.issued.length ≤ c.total p ∧ x.consumed ≤ c.total p ∧
      x.posted ≤ c.total p := by
  obtain ⟨hpost, hnotice, hput, hfinish⟩ := x.phase.extras_le
  have hissued := h.issued
  have hconsumed := h.consumed
  have hposted := h.posted
  by_cases hphase : x.phase = .finish
  · have hnumber := h.finished hphase
    have hzero := hfinish hphase
    omega
  · have hnumber := h.running hphase
    omega

theorem Counters.reducing (hposted : x.kernelSteps < x.posted) :
    x.phase = .reduce ∧ x.kernelSteps = x.number c := by
  have hnumber := h.posted
  have hle := h.atLeast
  cases hphase : x.phase with
  | reduce =>
    rw [hphase, Phase.post] at hnumber
    exact ⟨rfl, by omega⟩
  | init | waitRts | waitNotify | waitPut | finish =>
    rw [hphase, Phase.post] at hnumber
    omega

theorem Counters.rtsAfter (hphase : x.phase = .reduce) :
    x.rtsAfter c p = min (x.number c + 1 + 1) (c.total p) := by
  have hlt := h.running (by rw [hphase]; nofun)
  have hrts := h.rtsSent_eq (by rw [hphase]; nofun)
  have hlast := last_iff h.index (h.number_lt (by rw [hphase]; nofun))
  unfold Rank.rtsAfter Rank.lastStep Rank.lastRound
  simp only [Bool.and_eq_true, beq_iff_eq, ← hlast]
  split <;> omega

end

theorem next_frame (c : Config) (p : Plan) (rank : ℕ) (x : Rank α) :
    (x.next c p rank).rtsTaken = x.rtsTaken ∧ x.rtsSent ≤ (x.next c p rank).rtsSent ∧
      (x.next c p rank).delivered = x.delivered ∧ (x.next c p rank).consumed = x.consumed ∧
      (x.next c p rank).kernelSteps = x.kernelSteps := by
  have hrts : x.rtsSent ≤ x.rtsAfter c p := by
    unfold Rank.rtsAfter
    split <;> omega
  unfold Rank.next
  split <;> exact ⟨rfl, hrts, rfl, rfl, rfl⟩

section

variable (h : Counters c p rank x)
include h

theorem Counters.nextStep (hrank : rank < c.nRanks)
    (hphase : x.phase = .reduce) (hdone : x.kernelSteps = x.posted)
    (hmore : x.i + 1 < c.nRanks - 1) : Counters c p rank (x.nextStep c p) := by
  obtain ⟨hissued, htaken, hconsumed, hposted⟩ := h.at_phase hphase
  have hlt := h.running (by rw [hphase]; nofun)
  have hlast := last_iff h.index (h.number_lt (by rw [hphase]; nofun))
  exact {
    index := hmore
    running := fun _ => by
      change x.number c + 1 < _
      omega
    finished := nofun
    begun := nofun
    redPos := by
      change back c.nRanks x.redPos 1 = _
      rw [h.redPos, back_back hrank (by omega)]
      rfl
    __ := h
    issued := hissued
    rtsTaken := htaken
    consumed := hconsumed
    posted := hposted
    rtsSent := h.rtsAfter hphase
    atLeast := (hdone.trans hposted).ge
    idle := fun _ _ => h.idle (by rw [hphase]; nofun) (by rw [hphase]; nofun) }

theorem Counters.nextRound (hphase : x.phase = .reduce)
    (hdone : x.kernelSteps = x.posted) (hend : ¬ x.i + 1 < c.nRanks - 1) :
    Counters c p rank (x.nextRound c p rank) := by
  have hn := c.nRanks_ge
  have hindex := h.index
  obtain ⟨hissued, htaken, hconsumed, hposted⟩ := h.at_phase hphase
  have hlt := h.running (by rw [hphase]; nofun)
  have hnumber : (x.nextRound c p rank).number c = x.number c + 1 := by
    change (x.r + 1) * (c.nRanks - 1) + 0 = x.r * (c.nRanks - 1) + x.i + 1
    rw [Nat.succ_mul]
    omega
  have htotal : c.total p = p.nRounds * (c.nRanks - 1) := rfl
  have hround : (x.r + 1) * (c.nRanks - 1) = x.number c + 1 := hnumber
  exact {
    index := by
      change 0 < c.nRanks - 1
      omega
    running := fun hrun => by
      have hmore : x.r + 1 < p.nRounds := by
        by_contra hnot
        exact hrun (if_neg hnot)
      rw [hnumber, ← hround, htotal]
      exact Nat.mul_lt_mul_of_pos_right hmore (by omega)
    finished := fun hfin => by
      have hstop : ¬ x.r + 1 < p.nRounds := by
        intro hmore
        exact absurd ((if_pos hmore).symm.trans hfin) nofun
      have hle : p.nRounds * (c.nRanks - 1) ≤ (x.r + 1) * (c.nRanks - 1) :=
        Nat.mul_le_mul_right _ (by omega)
      omega
    begun := fun hinit => absurd hinit (head_ne_init _)
    redPos := by
      change (c.nRanks + rank - 2) % c.nRanks = (rank + c.nRanks - 2) % c.nRanks
      rw [Nat.add_comm]
    recvCount := by
      change x.recvCount - x.count p = c.recvcount - (x.r + 1) * p.stepCount
      rw [h.count_eq, h.recvCount, Config.roundCount, Nat.succ_mul]
      omega
    issued := by
      rw [hnumber]
      simp only [Rank.nextRound, head_put]
      exact hissued
    rtsTaken := by
      rw [hnumber]
      simp only [Rank.nextRound, head_put]
      exact htaken
    consumed := by
      rw [hnumber]
      simp only [Rank.nextRound, head_notice]
      exact hconsumed
    posted := by
      rw [hnumber]
      simp only [Rank.nextRound, head_post]
      exact hposted
    rtsSent := by
      have hphase' : (x.nextRound c p rank).phase ≠ .init := head_ne_init _
      rw [if_neg hphase', hnumber]
      exact h.rtsAfter hphase
    atLeast := by
      rw [hnumber]
      exact (hdone.trans hposted).ge
    __ := h
    idle := fun _ _ => h.idle (by rw [hphase]; nofun) (by rw [hphase]; nofun) }

theorem Counters.next (hrank : rank < c.nRanks)
    (hphase : x.phase = .reduce) (hdone : x.kernelSteps = x.posted) :
    Counters c p rank (x.next c p rank) := by
  unfold Rank.next
  split
  · exact h.nextStep hrank hphase hdone ‹_›
  · exact h.nextRound hphase hdone ‹_›

end

theorem counters_initial (hrounds : 1 ≤ p.nRounds) (user scratch : ℕ → α) :
    Counters c p rank (.initial c rank user scratch) where
  index := by
    have hn := c.nRanks_ge
    change 0 < c.nRanks - 1
    omega
  running _ := by
    have hn := c.nRanks_ge
    change 0 * (c.nRanks - 1) + 0 < p.nRounds * (c.nRanks - 1)
    rw [Nat.zero_mul]
    exact Nat.mul_pos hrounds (by omega)
  finished := nofun
  begun _ := Nat.zero_mul _
  redPos := by
    change (c.nRanks + rank - 2) % c.nRanks = (rank + c.nRanks - 2) % c.nRanks
    rw [Nat.add_comm]
  recvCount := by
    change c.recvcount = c.recvcount - 0 * p.stepCount
    rw [Nat.zero_mul, Nat.sub_zero]
  issued := (Nat.zero_mul _).symm
  rtsTaken := (Nat.zero_mul _).symm
  consumed := (Nat.zero_mul _).symm
  posted := (Nat.zero_mul _).symm
  rtsSent := rfl
  atLeast := (Nat.zero_mul _).le
  atMost := Nat.le_refl _
  delivered := Nat.le_refl _
  idle _ _ := rfl

end TorchComms.Algos.ReduceScatterRing
