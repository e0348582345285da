import TorchComms.AllToAllvDedup.ExecFlow

/-! # The loop comes by

A rank that has not left its loop comes to every place of it that its counters let it come to, with
all links as they were. So where no rank, no kernel and no arrival has anything to do any more, all
nodes are through.
-/
namespace TorchComms.AllToAllvDedup
open Function

namespace ExecState

variable {c : ExecConfig} {s t : ExecState} {a b : ℕ}

@[simp] theorem setPhase_setPhase (x y : ExecPhase) :
    (s.setPhase a x).setPhase a y = s.setPhase a y := by
  unfold setPhase setRank
  simp only [update_self, update_idem]

@[simp] theorem setPhase_rank (x : ExecPhase) :
    (s.setPhase a x).rank a = { s.rank a with phase := x } := update_self ..

theorem setPhase_phase : s.setPhase a (s.rank a).phase = s := by
  unfold setPhase setRank
  rw [update_eq_self_iff.mpr rfl]

section Loop

variable (ha : a < c.nNodes) (hrun : (s.rank a).phase ≠ .finished)
include ha hrun

theorem comesTo_check : Relation.ReflTransGen (Turn c) s (s.setPhase a .check) := by
  have hfwd : Relation.ReflTransGen (Turn c) (s.setPhase a .progressFwd) (s.setPhase a .check) := by
    have h := Turn.fwdEnd (c := c) (s := s.setPhase a .progressFwd) ha (by rw [setPhase_rank])
    rw [setPhase_setPhase] at h
    exact .single h
  have hintra : Relation.ReflTransGen (Turn c) (s.setPhase a .fwdIntra) (s.setPhase a .check) := by
    have h := Turn.intraEnd (c := c) (s := s.setPhase a .fwdIntra) ha (by rw [setPhase_rank])
    rw [setPhase_setPhase] at h
    split at h
    · exact .head h hfwd
    · exact .single h
  have hsend : Relation.ReflTransGen (Turn c) (s.setPhase a .progressSend) (s.setPhase a .check) := by
    have h := Turn.sendEnd (c := c) (s := s.setPhase a .progressSend) ha (by rw [setPhase_rank])
    rw [setPhase_setPhase] at h
    exact .head h hintra
  have hself := setPhase_phase (s := s) (a := a)
  cases hphase : (s.rank a).phase with
  | finished => exact absurd hphase hrun
  | progressSend =>
    rw [hphase] at hself
    rwa [hself] at hsend
  | fwdIntra =>
    rw [hphase] at hself
    rwa [hself] at hintra
  | progressFwd =>
    rw [hphase] at hself
    rwa [hself] at hfwd
  | check =>
    rw [hphase] at hself
    rw [hself]

theorem comesTo_top (hpending : (s.rank a).numPendingSendNodes ≠ 0 ∨
    (s.rank a).numPendingRecvFwdNodes ≠ 0 ∨ (s.rank a).fwdIntraDone = false) :
    Relation.ReflTransGen (Turn c) s (s.setPhase a (ExecRank.top (s.rank a))) := by
  have h := Turn.again (c := c) (s := s.setPhase a .check) ha (by rw [setPhase_rank])
    (by rw [setPhase_rank]; exact hpending)
  rw [setPhase_setPhase, setPhase_rank] at h
  exact (comesTo_check ha hrun).tail h

theorem comesTo_send (hpending : (s.rank a).numPendingSendNodes ≠ 0) :
    Relation.ReflTransGen (Turn c) s (s.setPhase a .progressSend) := by
  have h := comesTo_top ha hrun (.inl hpending)
  rwa [ExecRank.top, if_neg hpending] at h

theorem comesTo_intra (hpending : (s.rank a).numPendingSendNodes ≠ 0 ∨
    (s.rank a).numPendingRecvFwdNodes ≠ 0 ∨ (s.rank a).fwdIntraDone = false) :
    Relation.ReflTransGen (Turn c) s (s.setPhase a .fwdIntra) := by
  have h := comesTo_top ha hrun hpending
  unfold ExecRank.top at h
  split at h
  · exact h
  · have hend := Turn.sendEnd (c := c) (s := s.setPhase a .progressSend) ha (by rw [setPhase_rank])
    rw [setPhase_setPhase] at hend
    exact h.tail hend

theorem comesTo_fwd (hdone : (s.rank a).fwdIntraDone = true)
    (hpending : (s.rank a).numPendingRecvFwdNodes ≠ 0) :
    Relation.ReflTransGen (Turn c) s (s.setPhase a .progressFwd) := by
  have h := Turn.intraEnd (c := c) (s := s.setPhase a .fwdIntra) ha (by rw [setPhase_rank])
  rw [setPhase_setPhase, setPhase_rank, if_pos ⟨hdone, hpending⟩] at h
  exact (comesTo_intra ha hrun (.inr (.inl hpending))).tail h

end Loop

namespace Inv

section Stuck

variable (h : Inv c s) (hstuck : ∀ t u, Relation.ReflTransGen (Turn c) s t → ¬ Step c t u)
include h hstuck

theorem intraDone_of_stuck (ha : a < c.nNodes) : (s.rank a).fwdIntraDone = true := by
  have hkernel : (s.rank a).intraForwarded = true := by
    by_contra hne
    exact hstuck s _ .refl (.intraForward ha (by simpa using hne))
  by_contra hne
  have hfalse : (s.rank a).fwdIntraDone = false := by simpa using hne
  have hrun : (s.rank a).phase ≠ .finished := by
    intro hfin
    exact hne (h.finished a ha hfin).2.2
  have hturns := comesTo_intra ha hrun (.inr (.inr hfalse))
  refine hstuck _ _ hturns (.fwdIntra ha ?_ ?_ ?_)
  · rw [setPhase_rank]
  · rw [setPhase_rank]
    exact hfalse
  · rw [setPhase_rank]
    exact hkernel

theorem send_of_stuck (ha : a < c.nNodes) (hb : b < c.nNodes) (hne : a ≠ b)
    (hpending : (s.link (a, b)).sendTrans.done < c.numSteps a b) :
    (∀ l, ¬ Link.SendStep c (s.link (a, b)) l) ∧
      ¬ ((s.link (a, b)).sendTrans.done < (s.link (a, b)).sendTrans.posted ∧
        (s.link (a, b)).sendTrans.done < (s.link (a, b)).putsDone) := by
  have hcount : (s.rank a).numPendingSendNodes ≠ 0 := by
    rw [h.send a ha]
    apply Finset.card_ne_zero_of_mem (a := b)
    unfold sendPending
    rw [Finset.mem_filter, Finset.mem_range]
    exact ⟨hb, hne.symm, hpending.ne⟩
  have hrun : (s.rank a).phase ≠ .finished := fun hfin => hcount (h.finished a ha hfin).1
  have hturns := comesTo_send ha hrun hcount
  have hphase : ((s.setPhase a .progressSend).rank a).phase = .progressSend := by rw [setPhase_rank]
  constructor
  · exact fun l hl => hstuck _ _ hturns (.send ha hb hne.symm hphase (by omega) hl)
  · rintro ⟨hposted, hdone⟩
    exact hstuck _ _ hturns (.pollSendTrans ha hb hne.symm hphase (by omega) hposted hdone)

theorem fwd_of_stuck (ha : a < c.nNodes) (hb : b < c.nNodes) (hne : a ≠ b)
    (hpending : (s.link (a, b)).recvFwd.done < c.numSteps a b) :
    (∀ l, ¬ Link.FwdStep (c.numSteps a b) (s.link (a, b)) l) ∧
      ¬ ((s.link (a, b)).recvFwd.done < (s.link (a, b)).recvFwd.posted ∧
        isComplete (s.link (a, b)).forwarded c.numFwdWorkers (s.link (a, b)).recvFwd.done) := by
  have hcount : (s.rank b).numPendingRecvFwdNodes ≠ 0 := by
    rw [h.fwd b hb]
    apply Finset.card_ne_zero_of_mem (a := a)
    unfold fwdPending
    rw [Finset.mem_filter, Finset.mem_range]
    exact ⟨ha, hne, hpending.ne⟩
  have hrun : (s.rank b).phase ≠ .finished := fun hfin => hcount (h.finished b hb hfin).2.1
  have hturns := comesTo_fwd hb hrun (h.intraDone_of_stuck hstuck hb) hcount
  have hphase : ((s.setPhase b .progressFwd).rank b).phase = .progressFwd := by rw [setPhase_rank]
  constructor
  · exact fun l hl => hstuck _ _ hturns (.fwd ha hb hne hphase hpending.ne' hl)
  · rintro ⟨hposted, hdone⟩
    exact hstuck _ _ hturns (.pollFwd ha hb hne hphase hpending.ne' hposted hdone)

end Stuck

theorem enabled (h : Inv c s) (hpending : Pending c s) :
    ∃ t u, Relation.ReflTransGen (Turn c) s t ∧ Step c t u := by
  by_contra hnone
  have hstuck : ∀ t u, Relation.ReflTransGen (Turn c) s t → ¬ Step c t u :=
    fun t u hturns hstep => hnone ⟨t, u, hturns, hstep⟩
  obtain ⟨a, ha, b, hb, hne, hleft⟩ := hpending
  apply (h.links a ha b hb hne).done_of_stuck _ _ _ hleft
  · exact fun l hl => hstuck s _ .refl (.env ha hb hne hl)
  · exact h.send_of_stuck hstuck ha hb hne
  · exact h.fwd_of_stuck hstuck ha hb hne

end Inv

/-- Two nodes, three steps from node 0 to node 1 and two chunks. -/
def twoNodes : ExecConfig where
  nNodes := 2
  numBlocks := fun a _ => if a = 0 then 3 else 0
  NUM_CHUNKS := 2
  maxNumBlocksPerChunk := 1
  numSendWorkers := 1
  numFwdWorkers := 1
  NUM_CHUNKS_pos := Nat.two_pos
  maxNumBlocksPerChunk_pos := Nat.one_pos
  numSendWorkers_pos := Nat.one_pos
  numFwdWorkers_pos := Nat.one_pos

end ExecState
end TorchComms.AllToAllvDedup
