import Mathlib.Data.Nat.Basic

/-! # Ping and pong

Two parties meet in rounds of four steps. The lower one waits until the ping is clear, raises it,
waits for the pong and clears it. The upper one waits for the ping, clears it, waits until the pong
is clear and raises it. A party's place is the number of steps that it has taken.
-/
namespace TorchComms.Foundation

namespace PingPong

/-- How often the lower party has raised the ping. -/
def pings (l : ℕ) : ℕ := (l + 2) / 4

def pingsCleared (h : ℕ) : ℕ := (h + 2) / 4

def pongs (h : ℕ) : ℕ := h / 4

def pongsCleared (l : ℕ) : ℕ := l / 4

def PingUp (l h : ℕ) : Prop := pings l ≠ pingsCleared h

def PongUp (l h : ℕ) : Prop := pongs h ≠ pongsCleared l

/-- One of the two stands where it waits for the other, which is at most a round away. -/
def InStep (l h : ℕ) : Prop :=
  ∃ e, l = 4 * e + 2 ∧ 4 * e ≤ h ∧ h ≤ 4 * e + 4 ∨ h = 4 * e ∧ 4 * e ≤ l + 2 ∧ l ≤ 4 * e + 2

variable {l h k : ℕ}

theorem InStep.zero : InStep 0 0 := ⟨0, .inr (by omega)⟩

section

variable (hin : InStep l h)
include hin

theorem InStep.lower (hpong : l % 4 = 2 → PongUp l h) : InStep (l + 1) h := by
  simp only [PongUp, pongs, pongsCleared] at hpong
  obtain ⟨e, hl | hh⟩ := hin
  · exact ⟨e + 1, .inr (by omega)⟩
  · by_cases htop : l = 4 * e + 2
    · omega
    · exact ⟨e, .inr (by omega)⟩

theorem InStep.upper (hping : h % 4 = 0 → PingUp l h) : InStep l (h + 1) := by
  simp only [PingUp, pings, pingsCleared] at hping
  obtain ⟨e, hl | hh⟩ := hin
  · by_cases htop : h = 4 * e + 4
    · omega
    · exact ⟨e, .inl (by omega)⟩
  · exact ⟨e, .inl (by omega)⟩

/-! ## What the flags say of the places -/

theorem InStep.ping_clear (hl : l % 4 < 2) : ¬PingUp l h := by
  obtain ⟨e, hin⟩ := hin
  simp only [PingUp, pings, pingsCleared]
  omega

theorem InStep.pong_clear (hh : 2 ≤ h % 4) : ¬PongUp l h := by
  obtain ⟨e, hin⟩ := hin
  simp only [PongUp, pongs, pongsCleared]
  omega

theorem InStep.ping_up (hh : h % 4 = 1) : PingUp l h := by
  obtain ⟨e, hin⟩ := hin
  simp only [PingUp, pings, pingsCleared]
  omega

theorem InStep.pong_up (hl : l % 4 = 3) : PongUp l h := by
  obtain ⟨e, hin⟩ := hin
  simp only [PongUp, pongs, pongsCleared]
  omega

theorem InStep.pings_eq (hup : PingUp l h) : pings l = pingsCleared h + 1 := by
  obtain ⟨e, hin⟩ := hin
  simp only [PingUp, pings, pingsCleared] at hup ⊢
  omega

theorem InStep.pongs_eq (hup : PongUp l h) : pongs h = pongsCleared l + 1 := by
  obtain ⟨e, hin⟩ := hin
  simp only [PongUp, pongs, pongsCleared] at hup ⊢
  omega

/-! ## Where the other one is -/

/-- When the lower one is through with a round, so is the upper one. -/
theorem InStep.upper_done (hl : 4 * k + 4 ≤ l) : 4 * k + 4 ≤ h := by
  obtain ⟨e, hin⟩ := hin
  omega

theorem InStep.lower_raised (hh : 4 * k + 4 ≤ h) : 4 * k + 2 ≤ l := by
  obtain ⟨e, hin⟩ := hin
  omega

end

theorem InStep.settled {a b : ℕ} (hin : InStep (4 * a) (4 * b)) : a = b := by
  obtain ⟨e, hin⟩ := hin
  omega

theorem InStep.pong_of_le (hin : InStep l h) (hl : l % 4 = 2) (hle : l + 2 ≤ h) : PongUp l h := by
  obtain ⟨e, hin⟩ := hin
  simp only [PongUp, pongs, pongsCleared]
  omega

theorem InStep.ping_of_le (hin : InStep l h) (hh : h % 4 = 0) (hle : h + 2 ≤ l) : PingUp l h := by
  obtain ⟨e, hin⟩ := hin
  simp only [PingUp, pings, pingsCleared]
  omega

end PingPong

open PingPong

variable {α : Type*}

/-- The places of two parties with the values of their flags: a raised flag says in which round it
has been raised. -/
structure PingPong (raised : ℕ → α) (Clear : α → Prop) (l h : ℕ) (ping pong : α) : Prop where
  inStep : InStep l h
  ping_raised : PingUp l h → ping = raised (pings l)
  ping_clear : ¬PingUp l h → Clear ping
  pong_raised : PongUp l h → pong = raised (pongs h)
  pong_clear : ¬PongUp l h → Clear pong

namespace PingPong

variable {raised : ℕ → α} {Clear : α → Prop} {l h : ℕ} {ping pong : α}

theorem init (hping : Clear ping) (hpong : Clear pong) : PingPong raised Clear 0 0 ping pong where
  inStep := .zero
  ping_raised := fun hup => absurd rfl hup
  ping_clear := fun _ => hping
  pong_raised := fun hup => absurd rfl hup
  pong_clear := fun _ => hpong

section

variable (hpp : PingPong raised Clear l h ping pong)
include hpp

theorem pingUp_of_not_clear (hping : ¬Clear ping) :
    PingUp l h := not_not.mp fun hup => hping (hpp.ping_clear hup)

theorem pongUp_of_not_clear (hpong : ¬Clear pong) :
    PongUp l h := not_not.mp fun hup => hpong (hpp.pong_clear hup)

/-- A step of the lower one that leaves the flags alone. -/
theorem lower_silent
    (hpong : l % 4 = 2 → ¬Clear pong) (heven : l % 4 = 0 ∨ l % 4 = 2) :
    PingPong raised Clear (l + 1) h ping pong := by
  have hpings : pings (l + 1) = pings l := by
    simp only [pings]
    omega
  have hpongs : pongsCleared (l + 1) = pongsCleared l := by
    simp only [pongsCleared]
    omega
  refine ⟨hpp.inStep.lower fun hl => hpp.pongUp_of_not_clear (hpong hl), ?_, ?_, ?_, ?_⟩
  · simpa only [PingUp, hpings] using hpp.ping_raised
  · simpa only [PingUp, hpings] using hpp.ping_clear
  · simpa only [PongUp, hpongs] using hpp.pong_raised
  · simpa only [PongUp, hpongs] using hpp.pong_clear

theorem upper_silent
    (hping : h % 4 = 0 → ¬Clear ping) (heven : h % 4 = 0 ∨ h % 4 = 2) :
    PingPong raised Clear l (h + 1) ping pong := by
  have hpings : pingsCleared (h + 1) = pingsCleared h := by
    simp only [pingsCleared]
    omega
  have hpongs : pongs (h + 1) = pongs h := by
    simp only [pongs]
    omega
  refine ⟨hpp.inStep.upper fun hh => hpp.pingUp_of_not_clear (hping hh), ?_, ?_, ?_, ?_⟩
  · simpa only [PingUp, hpings] using hpp.ping_raised
  · simpa only [PingUp, hpings] using hpp.ping_clear
  · simpa only [PongUp, hpongs] using hpp.pong_raised
  · simpa only [PongUp, hpongs] using hpp.pong_clear

theorem lower_raise (hl : l % 4 = 1) :
    PingPong raised Clear (l + 1) h (raised (pings (l + 1))) pong := by
  have hclear := hpp.inStep.ping_clear (by omega)
  have hup : PingUp (l + 1) h := by
    simp only [PingUp, pings, pingsCleared] at hclear ⊢
    omega
  have hpongs : pongsCleared (l + 1) = pongsCleared l := by
    simp only [pongsCleared]
    omega
  refine ⟨hpp.inStep.lower (by omega), fun _ => rfl, fun hnot => absurd hup hnot, ?_, ?_⟩
  · simpa only [PongUp, hpongs] using hpp.pong_raised
  · simpa only [PongUp, hpongs] using hpp.pong_clear

theorem upper_raise (hh : h % 4 = 3) :
    PingPong raised Clear l (h + 1) ping (raised (pongs (h + 1))) := by
  have hclear := hpp.inStep.pong_clear (by omega)
  have hup : PongUp l (h + 1) := by
    simp only [PongUp, pongs, pongsCleared] at hclear ⊢
    omega
  have hpings : pingsCleared (h + 1) = pingsCleared h := by
    simp only [pingsCleared]
    omega
  refine ⟨hpp.inStep.upper (by omega), ?_, ?_, fun _ => rfl, fun hnot => absurd hup hnot⟩
  · simpa only [PingUp, hpings] using hpp.ping_raised
  · simpa only [PingUp, hpings] using hpp.ping_clear

theorem lower_clear (hl : l % 4 = 3) {pong' : α}
    (hpong : Clear pong') : PingPong raised Clear (l + 1) h ping pong' := by
  have hpongs := hpp.inStep.pongs_eq (hpp.inStep.pong_up hl)
  have hdown : ¬PongUp (l + 1) h := by
    simp only [PongUp, pongs, pongsCleared] at hpongs ⊢
    omega
  have hpings : pings (l + 1) = pings l := by
    simp only [pings]
    omega
  refine ⟨hpp.inStep.lower (by omega), ?_, ?_, fun hup => absurd hup hdown, fun _ => hpong⟩
  · simpa only [PingUp, hpings] using hpp.ping_raised
  · simpa only [PingUp, hpings] using hpp.ping_clear

theorem upper_clear (hh : h % 4 = 1) {ping' : α}
    (hping : Clear ping') : PingPong raised Clear l (h + 1) ping' pong := by
  have hpings := hpp.inStep.pings_eq (hpp.inStep.ping_up hh)
  have hdown : ¬PingUp l (h + 1) := by
    simp only [PingUp, pings, pingsCleared] at hpings ⊢
    omega
  have hpongs : pongs (h + 1) = pongs h := by
    simp only [pongs]
    omega
  refine ⟨hpp.inStep.upper (by omega), fun hup => absurd hup hdown, fun _ => hping, ?_, ?_⟩
  · simpa only [PongUp, hpongs] using hpp.pong_raised
  · simpa only [PongUp, hpongs] using hpp.pong_clear

end

end PingPong

end TorchComms.Foundation
