import TorchComms.AllToAllvDedup.ExecProgress
import TorchComms.Foundation.Run

/-! # The ranks can finish

Every step of the loops, the kernels and the network gets something done, and there is only so much
to do. So from the start a run comes to where all ranks have left their loops.
-/
namespace TorchComms.AllToAllvDedup
open Function

namespace Link

variable {c : ExecConfig} {a b n : ℕ} {l l' : Link}

/-- What has been done on a link. -/
def work (c : ExecConfig) (l : Link) : ℕ :=
  (l.sendCopy.posted + l.sendCopy.done + l.fwdChunkRSyncReqs.length + l.sendTrans.posted +
      l.sendTrans.done + l.recvTransDone + l.recvFwd.posted + l.recvFwd.done + l.putsDone +
      l.notified + l.ctrlsArrived) +
    (∑ w ∈ Finset.range c.numSendWorkers, l.copied w +
      ∑ w ∈ Finset.range c.numFwdWorkers, l.forwarded w)

theorem sum_update_lt {f : ℕ → ℕ} {w m : ℕ} (hw : w < m) :
    ∑ v ∈ Finset.range m, f v < ∑ v ∈ Finset.range m, update f w (f w + 1) v := by
  apply Foundation.sum_work_lt hw
  · rw [update_self]
    exact Nat.lt_succ_self _
  · intro q _
    rw [update_apply]
    split
    · rename_i hq
      rw [hq]
      exact Nat.le_succ _
    · exact Nat.le_refl _

theorem SendStep.work_lt (h : SendStep c l l') : l.work c < l'.work c := by
  cases h <;> simp only [work, List.length_append, List.length_singleton] <;> omega

theorem FwdStep.work_lt (h : FwdStep n l l') : l.work c < l'.work c := by
  cases h <;> simp only [work] <;> omega

theorem EnvStep.work_lt (h : EnvStep c a b l l') : l.work c < l'.work c := by
  cases h with
  | sendCopy hw =>
    have hsum := sum_update_lt (f := l.copied) hw
    simp only [work]
    omega
  | recvFwd hw =>
    have hsum := sum_update_lt (f := l.forwarded) hw
    simp only [work]
    omega
  | putDone => simp only [work]; omega
  | notify => simp only [work]; omega
  | ctrl => simp only [work]; omega

theorem work_pollSendTrans : l.work c < (l.pollSendTrans n).work c := by
  simp only [work, pollSendTrans]
  omega

theorem work_pollFwd : l.work c < (l.pollFwd c n).work c := by
  simp only [work, pollFwd]
  omega

/-- There is only so much to do. -/
theorem work_le (h : LinkInv c n l) : l.work c ≤ 12 * n + (c.numSendWorkers * n + c.numFwdWorkers * n) := by
  have hstages := h.stages
  have hcopyReady := h.copyReady
  have hcopyPosted := h.copyPosted
  have hcopyDone := h.copyDone_le
  have hreqs := h.rsyncLength
  have hputs := h.putsDone
  have hnotified := h.notified
  have hctrls := h.ctrls
  have hlength := h.ssyncLength
  have hfwdReady := h.fwdReady
  have hfwdPosted := h.fwdPosted
  have hcap := c.NUM_CHUNKS_pos
  have hcopied := Foundation.sum_work_le fun w hw => (h.copied w hw).2.2
  have hforwarded : ∑ w ∈ Finset.range c.numFwdWorkers, l.forwarded w ≤ c.numFwdWorkers * n := by
    apply Foundation.sum_work_le
    intro w hw
    have hle := (h.forwarded w hw).2
    omega
  unfold work
  omega

end Link

namespace ExecState

variable {c : ExecConfig} {s t : ExecState} {a b : ℕ}

def ExecRank.work (x : ExecRank) : ℕ :=
  (if x.intraForwarded then 1 else 0) + (if x.fwdIntraDone then 1 else 0) +
    if x.phase = .finished then 1 else 0

/-- What has been done altogether. -/
def work (c : ExecConfig) (s : ExecState) : ℕ :=
  ∑ p ∈ (Finset.range c.nNodes).offDiag, (s.link p).work c +
    ∑ a ∈ Finset.range c.nNodes, ExecRank.work (s.rank a)

theorem work_lt_of_link (ha : a < c.nNodes) (hb : b < c.nNodes) (hne : a ≠ b)
    (hlink : (s.link (a, b)).work c < (t.link (a, b)).work c)
    (hlinks : ∀ p, p ≠ (a, b) → t.link p = s.link p)
    (hranks : ∀ q, ExecRank.work (t.rank q) = ExecRank.work (s.rank q)) : work c s < work c t := by
  apply Nat.add_lt_add_of_lt_of_le
  · apply Finset.sum_lt_sum
    · intro p _
      by_cases hp : p = (a, b)
      · rw [hp]
        exact hlink.le
      · rw [hlinks p hp]
    · refine ⟨(a, b), ?_, hlink⟩
      simp [ha, hb, hne]
  · exact (Finset.sum_congr rfl fun q _ => (hranks q).symm).le

theorem work_lt_of_rank (ha : a < c.nNodes) {x : ExecRank}
    (hlt : ExecRank.work (s.rank a) < ExecRank.work x) : work c s < work c (s.setRank a x) := by
  apply Nat.add_lt_add_of_le_of_lt (Nat.le_refl _)
  apply Foundation.sum_work_lt ha
  · rwa [setRank_self]
  · intro q _
    by_cases hq : q = a
    · rw [hq, setRank_self]
      exact hlt.le
    · rw [setRank_of_ne hq]

theorem Step.work_lt (h : Step c s t) : work c s < work c t := by
  cases h with
  | send ha hb hne _ _ hl =>
    refine work_lt_of_link ha hb hne.symm ?_ (fun p hp => setLink_of_ne hp) fun _ => rfl
    rw [setLink_self]
    exact hl.work_lt
  | @pollSendTrans a b ha hb hne =>
    refine work_lt_of_link ha hb hne.symm ?_ (fun p hp => setLink_of_ne hp) fun q => ?_
    · exact Link.work_pollSendTrans.trans_eq (congrArg (Link.work c) (setLink_self (s := s) _).symm)
    · by_cases hq : q = a
      · rw [hq, setRank_self]
        rfl
      · rw [setRank_of_ne hq]
        rfl
  | fwd ha hb hne _ _ hl =>
    refine work_lt_of_link ha hb hne ?_ (fun p hp => setLink_of_ne hp) fun _ => rfl
    rw [setLink_self]
    exact hl.work_lt
  | @pollFwd a b ha hb hne =>
    refine work_lt_of_link ha hb hne ?_ (fun p hp => setLink_of_ne hp) fun q => ?_
    · exact Link.work_pollFwd.trans_eq (congrArg (Link.work c) (setLink_self (s := s) _).symm)
    · by_cases hq : q = b
      · rw [hq, setRank_self]
        rfl
      · rw [setRank_of_ne hq]
        rfl
  | env ha hb hne hl =>
    refine work_lt_of_link ha hb hne ?_ (fun p hp => setLink_of_ne hp) fun _ => rfl
    rw [setLink_self]
    exact hl.work_lt
  | intraForward ha hkernel =>
    apply work_lt_of_rank ha
    simp [ExecRank.work, hkernel]
  | fwdIntra ha _ hdone =>
    apply work_lt_of_rank ha
    simp [ExecRank.work, hdone]
  | leave ha hphase =>
    apply work_lt_of_rank ha
    simp [ExecRank.work, hphase]

theorem Turn.work_eq (h : Turn c s t) : work c t = work c s := by
  have hphase : ∀ (a : ℕ) (phase : ExecPhase), (s.rank a).phase ≠ .finished → phase ≠ .finished →
      work c (s.setPhase a phase) = work c s := by
    intro a phase hold hnew
    unfold work
    congr 1
    refine Finset.sum_congr rfl fun q _ => ?_
    by_cases hq : q = a
    · rw [hq, setPhase_rank]
      simp [ExecRank.work, hold, hnew]
    · exact congrArg ExecRank.work (setRank_of_ne hq)
  cases h with
  | sendEnd _ hold => exact hphase _ _ (hold ▸ nofun) nofun
  | intraEnd _ hold =>
    apply hphase _ _ (hold ▸ nofun)
    split <;> nofun
  | fwdEnd _ hold => exact hphase _ _ (hold ▸ nofun) nofun
  | again _ hold =>
    apply hphase _ _ (hold ▸ nofun)
    unfold ExecRank.top
    split <;> nofun

theorem work_of_turns (h : Relation.ReflTransGen (Turn c) s t) : work c t = work c s := by
  induction h with
  | refl => rfl
  | tail _ hturn ih => rw [hturn.work_eq, ih]

/-- Turns of the loops and then a step. -/
def Round (c : ExecConfig) (s t : ExecState) : Prop :=
  ∃ u, Relation.ReflTransGen (Turn c) s u ∧ Step c u t

namespace Inv

theorem turns (h : Inv c s) (hturns : Relation.ReflTransGen (Turn c) s t) : Inv c t := by
  induction hturns with
  | refl => exact h
  | tail _ hturn ih => exact ih.turn hturn

theorem work_le (h : Inv c s) : work c s ≤
    ∑ p ∈ (Finset.range c.nNodes).offDiag, (12 * c.numSteps p.1 p.2 +
      (c.numSendWorkers * c.numSteps p.1 p.2 + c.numFwdWorkers * c.numSteps p.1 p.2)) +
        c.nNodes * 3 := by
  apply Nat.add_le_add
  · apply Finset.sum_le_sum
    rintro ⟨a, b⟩ hp
    rw [Finset.mem_offDiag, Finset.mem_range, Finset.mem_range] at hp
    exact Link.work_le (h.links a hp.1 b hp.2.1 hp.2.2)
  · apply Foundation.sum_work_le
    intro q _
    unfold ExecRank.work
    split <;> split <;> split <;> omega

theorem exists_round (h : Inv c s) (hrank : ∃ a < c.nNodes, (s.rank a).phase ≠ .finished) :
    ∃ t, Round c s t := by
  by_contra hnone
  have hstuck : ∀ t u, Relation.ReflTransGen (Turn c) s t → ¬ Step c t u :=
    fun t u hturns hstep => hnone ⟨u, t, hturns, hstep⟩
  have hpending : ¬ Pending c s := by
    intro hpending
    rcases h.enabled hpending with ⟨t, u, hturns, hstep⟩
    exact hstuck t u hturns hstep
  rcases hrank with ⟨a, ha, hrun⟩
  have hsend : (s.rank a).numPendingSendNodes = 0 := by
    rw [h.send a ha, Finset.card_eq_zero, Finset.eq_empty_iff_forall_notMem]
    intro b hb
    rw [sendPending, Finset.mem_filter, Finset.mem_range] at hb
    have hle := (h.links a ha b hb.1 hb.2.1.symm).stages
    exact hpending ⟨a, ha, b, hb.1, hb.2.1.symm, Or.inl (by omega)⟩
  have hfwd : (s.rank a).numPendingRecvFwdNodes = 0 := by
    rw [h.fwd a ha, Finset.card_eq_zero, Finset.eq_empty_iff_forall_notMem]
    intro b hb
    rw [fwdPending, Finset.mem_filter, Finset.mem_range] at hb
    have hle := (h.links b hb.1 a ha hb.2.1).stages
    exact hpending ⟨b, hb.1, a, ha, hb.2.1, Or.inr (by omega)⟩
  refine hstuck _ _ (comesTo_check ha hrun) (.leave ha ?_ ?_ ?_ ?_)
  · rw [setPhase_rank]
  · rw [setPhase_rank]
    exact hsend
  · rw [setPhase_rank]
    exact hfwd
  · rw [setPhase_rank]
    exact h.intraDone_of_stuck hstuck ha

end Inv

theorem exists_finished (c : ExecConfig) :
    ∃ s, Reachable c s ∧ ∀ a < c.nNodes, (s.rank a).phase = .finished := by
  have hinv : ∀ s t, Inv c s → Round c s t → Inv c t :=
    fun _ _ h ⟨_, hturns, hstep⟩ => (h.turns hturns).step hstep
  have hlt : ∀ s t, Inv c s → Round c s t → work c s < work c t :=
    fun _ _ _ ⟨_, hturns, hstep⟩ => (work_of_turns hturns).symm.trans_lt hstep.work_lt
  rcases Foundation.exists_done (Inv c) (fun s => ∀ a < c.nNodes, (s.rank a).phase = .finished)
    (work c) _ hinv hlt (fun _ h => h.work_le)
    (fun _ h hnot => h.exists_round (by simpa using hnot)) (Inv.initial c) with ⟨s, hrun, hdone⟩
  refine ⟨s, ?_, hdone⟩
  clear hdone
  induction hrun with
  | refl => exact .refl
  | tail _ hround ih =>
    rcases hround with ⟨u, hturns, hstep⟩
    have hu : Reachable c u := ih.trans (Relation.ReflTransGen.mono (fun _ _ => Or.inr) _ _ hturns)
    exact hu.tail (Or.inl hstep)

end ExecState
end TorchComms.AllToAllvDedup

/-! ## Counters and steps

The counters of a link are in order. All stay within the steps of the link but one: a put that has
completed always lets the sender copy another step, on top of the chunks it had at the start, though
there may be no such step.
-/
namespace TorchComms.AllToAllvDedup
open Function

namespace ExecState

variable {c : ExecConfig} {s : ExecState} {a b : ℕ}

/-- The counters of every link are in order and within its steps, the counts of pending nodes are
right, and only steps of the link are posted to the kernels. -/
structure Bounded (c : ExecConfig) (s : ExecState) : Prop where
  sendCopy : ∀ a < c.nNodes, ∀ b < c.nNodes, a ≠ b →
    (s.link (a, b)).sendCopy.done ≤ (s.link (a, b)).sendCopy.posted ∧
    (s.link (a, b)).sendCopy.posted ≤ (s.link (a, b)).sendCopy.ready ∧
    (s.link (a, b)).sendCopy.ready ≤ c.numSteps a b
  sendTrans : ∀ a < c.nNodes, ∀ b < c.nNodes, a ≠ b →
    (s.link (a, b)).sendTrans.done ≤ (s.link (a, b)).sendTrans.posted ∧
    (s.link (a, b)).sendTrans.posted ≤ (s.link (a, b)).sendTrans.ready ∧
    (s.link (a, b)).sendTrans.ready ≤ c.numSteps a b
  recvFwd : ∀ a < c.nNodes, ∀ b < c.nNodes, a ≠ b →
    (s.link (a, b)).recvFwd.done ≤ (s.link (a, b)).recvFwd.posted ∧
    (s.link (a, b)).recvFwd.posted ≤ (s.link (a, b)).recvFwd.ready ∧
    (s.link (a, b)).recvFwd.ready = (s.link (a, b)).recvTransDone ∧
    (s.link (a, b)).recvTransDone ≤ c.numSteps a b
  pendingSend : ∀ a < c.nNodes, (s.rank a).numPendingSendNodes = (sendPending c s a).card
  pendingFwd : ∀ b < c.nNodes, (s.rank b).numPendingRecvFwdNodes = (fwdPending c s b).card
  copySteps : ∀ a < c.nNodes, ∀ b < c.nNodes, a ≠ b → ∀ step < (s.link (a, b)).sendCopy.posted,
    step < c.numSteps a b
  fwdSteps : ∀ a < c.nNodes, ∀ b < c.nNodes, a ≠ b → ∀ step < (s.link (a, b)).recvFwd.posted,
    step < c.numSteps a b

theorem copyReady_le {n : ℕ} {l : Link} (h : LinkInv c n l) (hn : n ≤ 1 ∨ c.NUM_CHUNKS = 1) :
    l.sendCopy.ready ≤ n := by
  have hready := h.copyReady
  omega

theorem Inv.bounded (h : Inv c s)
    (hsteps : ∀ a < c.nNodes, ∀ b < c.nNodes, a ≠ b → c.numSteps a b ≤ 1 ∨ c.NUM_CHUNKS = 1) :
    Bounded c s where
  sendCopy := by
    intro a ha b hb hne
    have hlink := h.links a ha b hb hne
    exact ⟨hlink.copyDone, hlink.copyPosted, copyReady_le hlink (hsteps a ha b hb hne)⟩
  sendTrans := by
    intro a ha b hb hne
    have hlink := h.links a ha b hb hne
    refine ⟨hlink.putsDone.1.trans hlink.putsDone.2, hlink.transPosted, ?_⟩
    rw [hlink.transReady]
    exact hlink.copyDone_le
  recvFwd := by
    intro a ha b hb hne
    have hlink := h.links a ha b hb hne
    have hstages := hlink.stages
    exact ⟨hlink.fwdDone, hlink.fwdPosted, hlink.fwdReady, hstages.2.1.trans hstages.2.2.1⟩
  pendingSend := h.send
  pendingFwd := h.fwd
  copySteps := by
    intro a ha b hb hne step hstep
    have hlink := h.links a ha b hb hne
    exact hstep.trans_le (hlink.copyPosted.trans (copyReady_le hlink (hsteps a ha b hb hne)))
  fwdSteps := by
    intro a ha b hb hne step hstep
    have hlink := h.links a ha b hb hne
    have hstages := hlink.stages
    have hready := hlink.fwdReady
    have hposted := hlink.fwdPosted
    omega

/-! ### Where all puts have completed -/

theorem Inv.sent_of_finished (h : Inv c s) (ha : a < c.nNodes) (hb : b < c.nNodes) (hne : a ≠ b)
    (hfin : (s.rank a).phase = .finished) : (s.link (a, b)).sendTrans.done = c.numSteps a b := by
  have hzero := h.send a ha
  rw [(h.finished a ha hfin).1, eq_comm, Finset.card_eq_zero, Finset.eq_empty_iff_forall_notMem]
    at hzero
  by_contra hpending
  apply hzero b
  rw [sendPending, Finset.mem_filter, Finset.mem_range]
  exact ⟨hb, hne.symm, hpending⟩

theorem Inv.forwarded_of_finished (h : Inv c s) (ha : a < c.nNodes) (hb : b < c.nNodes)
    (hne : a ≠ b) (hfin : (s.rank b).phase = .finished) :
    (s.link (a, b)).recvFwd.done = c.numSteps a b := by
  have hzero := h.fwd b hb
  rw [(h.finished b hb hfin).2.1, eq_comm, Finset.card_eq_zero, Finset.eq_empty_iff_forall_notMem]
    at hzero
  by_contra hpending
  apply hzero a
  rw [fwdPending, Finset.mem_filter, Finset.mem_range]
  exact ⟨ha, hne, hpending⟩

theorem exists_not_bounded (ha : a < c.nNodes) (hb : b < c.nNodes) (hne : a ≠ b)
    (hsteps : 2 ≤ c.numSteps a b) (hchunks : 2 ≤ c.NUM_CHUNKS) :
    ∃ s, Reachable c s ∧ ¬ Bounded c s := by
  rcases exists_finished c with ⟨s, hs, hfin⟩
  refine ⟨s, hs, fun hbounded => ?_⟩
  have hinv := Inv.of_reachable hs
  have hready := (hinv.links a ha b hb hne).copyReady
  have hle := (hbounded.sendCopy a ha b hb hne).2.2
  rw [hinv.sent_of_finished ha hb hne (hfin a ha)] at hready
  omega

/-- The counters stay within the steps in every run exactly where there is one chunk, or no node has
more than one step for another. -/
theorem bounded_iff (c : ExecConfig) : (∀ s, Reachable c s → Bounded c s) ↔
    ∀ a < c.nNodes, ∀ b < c.nNodes, a ≠ b → c.numSteps a b ≤ 1 ∨ c.NUM_CHUNKS = 1 := by
  constructor
  · intro hall a ha b hb hne
    by_contra hmany
    have hpos := c.NUM_CHUNKS_pos
    rcases exists_not_bounded ha hb hne (by omega) (by omega) with ⟨s, hs, hnot⟩
    exact hnot (hall s hs)
  · exact fun hsteps s hs => (Inv.of_reachable hs).bounded hsteps

/-- Three steps and two chunks. -/
theorem not_bounded_twoNodes : ¬ ∀ s, Reachable twoNodes s → Bounded twoNodes s := by
  intro hall
  rcases exists_not_bounded (c := twoNodes) (a := 0) (b := 1) (by decide) (by decide) (by decide)
    (by decide) (by decide) with ⟨s, hs, hnot⟩
  exact hnot (hall s hs)

end ExecState
end TorchComms.AllToAllvDedup
