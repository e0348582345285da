import TorchComms.AllToAllvDedup.ExecLoop
import TorchComms.Foundation.RingSlot

/-! # No chunk too early, and no rank stuck

The counters of a link bound each other around the whole circle: the copies by the puts, the puts by
the control messages, and these by the steps that have been forwarded. A link at which nothing can
be done has nothing left to do.
-/
namespace TorchComms.AllToAllvDedup
open Function

namespace LinkInv

variable {c : ExecConfig} {n a b step : ℕ} {l : Link}

theorem refill (h : LinkInv c n l) (hround : c.NUM_CHUNKS ≤ step) (hposted : step < l.sendCopy.posted) :
    step - c.NUM_CHUNKS < l.putsDone := by
  have := h.copyReady
  have := h.copyPosted
  have := h.putsDone
  omega

theorem remote (h : LinkInv c n l) (hround : c.NUM_CHUNKS ≤ step)
    (hposted : step < l.sendTrans.posted) :
    isComplete l.forwarded c.numFwdWorkers (step - c.NUM_CHUNKS) := by
  intro w hw
  have hfwd := (h.forwarded w hw).1
  have hcredit := h.credit
  have hctrls := h.ctrls
  rw [h.ssyncLength] at hctrls
  omega

/-- Of three chunks the mask leaves two, and steps 0 and 1 share one of them. -/
example : 0 &&& (3 - 1) = 1 &&& (3 - 1) := by decide

theorem received_eq (h : LinkInv c n l) (hposted : l.sendTrans.posted = n) :
    ExecState.received l = n - c.NUM_CHUNKS := by
  have hcredit := h.credit
  have hctrls := h.ctrls
  have hreqs := h.rsyncLength
  rw [h.ssyncLength] at hctrls
  unfold ExecState.received
  omega

section

variable (h : LinkInv c (c.numSteps a b) l) (henv : ∀ l', ¬ Link.EnvStep c a b l l')
include h henv

theorem posted_of_stuck
    (hsend : ∀ l', ¬ Link.SendStep c l l')
    (hpoll : ¬ (l.sendTrans.done < l.sendTrans.posted ∧ l.sendTrans.done < l.putsDone))
    (hpending : l.sendTrans.done < c.numSteps a b) :
    c.NUM_CHUNKS + l.fwdChunkSSyncReqs.length ≤ l.sendTrans.posted ∧
      l.sendTrans.posted < c.numSteps a b := by
  have hcopied : ∀ w < c.numSendWorkers, min l.sendCopy.posted (c.numSteps a b) ≤ l.copied w := by
    intro w hw
    by_contra hlt
    apply henv _ (.sendCopy hw (by omega) _)
    rw [← c.lt_numSteps_iff]
    omega
  have hcopyPosted : l.sendCopy.ready ≤ l.sendCopy.posted :=
    Nat.not_lt.mp fun hlt => hsend _ (.postSendCopy hlt)
  have hcopyDone : min l.sendCopy.posted (c.numSteps a b) ≤ l.sendCopy.done := by
    by_contra hlt
    refine hsend _ (.pollSendCopy (Nat.le_refl _) (by omega) fun w hw => ?_)
    have := hcopied w hw
    omega
  have hputs : l.sendTrans.posted ≤ l.putsDone :=
    Nat.not_lt.mp fun hlt => henv _ (.putDone hlt)
  have harrived : l.fwdChunkSSyncReqs.length ≤ l.ctrlsArrived :=
    Nat.not_lt.mp fun hlt => henv _ (.ctrl hlt)
  have hready := h.copyReady
  have htrans := h.transReady
  have hdone := h.putsDone
  have hcap := c.NUM_CHUNKS_pos
  have hlt : l.sendTrans.posted < l.sendTrans.ready := by omega
  constructor
  · by_contra hfree
    by_cases hround : c.NUM_CHUNKS ≤ l.sendTrans.posted
    · by_cases hreq : l.sendTrans.posted ∈ l.fwdChunkRSyncReqs
      · obtain ⟨i, hi⟩ := List.mem_iff_getElem?.mp hreq
        refine hsend _ (.iput hlt (.inr ⟨i, ?_, hi⟩))
        have hlen := (List.getElem?_eq_some_iff.mp hi).1
        rw [h.rsyncReqs, List.getElem?_range' hlen] at hi
        have := Option.some.inj hi
        omega
      · exact hsend _ (.irecvCtrl hlt hround hreq)
    · exact hsend _ (.iput hlt (.inl (Nat.not_le.mp hround)))
  · have := h.copyDone_le
    omega

theorem forwarded_of_stuck
    (hfwd : ∀ l', ¬ Link.FwdStep (c.numSteps a b) l l')
    (hpoll : ¬ (l.recvFwd.done < l.recvFwd.posted ∧
      isComplete l.forwarded c.numFwdWorkers l.recvFwd.done)) :
    l.recvFwd.done = l.sendTrans.posted := by
  obtain ⟨h1, h2, h3, _⟩ := h.stages
  have hnotified : l.sendTrans.posted ≤ l.notified :=
    Nat.not_lt.mp fun hlt => henv _ (.notify hlt)
  have htrans : l.sendTrans.posted ≤ l.recvTransDone := by
    by_contra hlt
    exact hfwd _ (.pollFwdTrans (by omega) (by omega))
  have hposted : l.recvFwd.ready ≤ l.recvFwd.posted :=
    Nat.not_lt.mp fun hlt => hfwd _ (.postFwd hlt)
  have hready := h.fwdReady
  have hle := h.fwdPosted
  have hforwarded : ∀ w < c.numFwdWorkers, l.recvFwd.posted ≤ l.forwarded w := by
    intro w hw
    by_contra hlt
    apply henv _ (.recvFwd hw (by omega) _)
    rw [← c.lt_numSteps_iff]
    omega
  by_contra hne
  have hlt : l.recvFwd.done < l.recvFwd.posted := by omega
  exact hpoll ⟨hlt, fun w hw => hlt.trans_le (hforwarded w hw)⟩

theorem done_of_stuck
    (hsend : l.sendTrans.done < c.numSteps a b → (∀ l', ¬ Link.SendStep c l l') ∧
      ¬ (l.sendTrans.done < l.sendTrans.posted ∧ l.sendTrans.done < l.putsDone))
    (hfwd : l.recvFwd.done < c.numSteps a b → (∀ l', ¬ Link.FwdStep (c.numSteps a b) l l') ∧
      ¬ (l.recvFwd.done < l.recvFwd.posted ∧
        isComplete l.forwarded c.numFwdWorkers l.recvFwd.done)) :
    ¬ (l.sendTrans.done < c.numSteps a b ∨ l.recvFwd.done < c.numSteps a b) := by
  have hstages := h.stages
  have hdone := h.putsDone
  have hlength := h.ssyncLength
  have hcap := c.NUM_CHUNKS_pos
  have hsent : ¬ l.sendTrans.done < c.numSteps a b := by
    intro hpending
    obtain ⟨hno, hpoll⟩ := hsend hpending
    obtain ⟨hposted, hlt⟩ := h.posted_of_stuck henv hno hpoll hpending
    obtain ⟨hno, hpoll⟩ := hfwd (by omega)
    have := h.forwarded_of_stuck henv hno hpoll
    omega
  rintro (hpending | hpending)
  · exact hsent hpending
  · obtain ⟨hno, hpoll⟩ := hfwd hpending
    have := h.forwarded_of_stuck henv hno hpoll
    omega

end

end LinkInv

namespace ExecState

variable {c : ExecConfig} {s t : ExecState} {a b : ℕ}

/-- The nodes that a rank still sends to. -/
def sendPending (c : ExecConfig) (s : ExecState) (a : ℕ) : Finset ℕ :=
  (Finset.range c.nNodes).filter fun b => b ≠ a ∧ (s.link (a, b)).sendTrans.done ≠ c.numSteps a b

/-- The nodes that a rank still forwards from. -/
def fwdPending (c : ExecConfig) (s : ExecState) (b : ℕ) : Finset ℕ :=
  (Finset.range c.nNodes).filter fun a => a ≠ b ∧ (s.link (a, b)).recvFwd.done ≠ c.numSteps a b

structure Inv (c : ExecConfig) (s : ExecState) : Prop where
  links : ∀ a < c.nNodes, ∀ b < c.nNodes, a ≠ b → LinkInv c (c.numSteps a b) (s.link (a, b))
  send : ∀ a < c.nNodes, (s.rank a).numPendingSendNodes = (sendPending c s a).card
  fwd : ∀ b < c.nNodes, (s.rank b).numPendingRecvFwdNodes = (fwdPending c s b).card
  intra : ∀ a < c.nNodes, (s.rank a).fwdIntraDone = true → (s.rank a).intraForwarded = true
  finished : ∀ a < c.nNodes, (s.rank a).phase = .finished →
    (s.rank a).numPendingSendNodes = 0 ∧ (s.rank a).numPendingRecvFwdNodes = 0 ∧
      (s.rank a).fwdIntraDone = true

theorem numSteps_pos_iff (c : ExecConfig) (a b : ℕ) : 0 < c.numSteps a b ↔ c.numBlocks a b ≠ 0 := by
  rw [c.lt_numSteps_iff]
  unfold ExecConfig.numPendingBlocks
  rw [Nat.zero_mul, Nat.sub_zero]

@[simp] theorem setLink_self (l : Link) : (s.setLink a b l).link (a, b) = l := update_self ..

@[simp] theorem setLink_of_ne {l : Link} {p : ℕ × ℕ} (h : p ≠ (a, b)) :
    (s.setLink a b l).link p = s.link p := update_of_ne h ..

@[simp] theorem setRank_self (x : ExecRank) : (s.setRank a x).rank a = x := update_self ..

@[simp] theorem setRank_of_ne {x : ExecRank} (h : b ≠ a) : (s.setRank a x).rank b = s.rank b :=
  update_of_ne h ..

theorem sendPending_congr (h : ∀ p, (t.link p).sendTrans.done = (s.link p).sendTrans.done) (a : ℕ) :
    sendPending c t a = sendPending c s a := by
  unfold sendPending
  simp only [h]

theorem fwdPending_congr (h : ∀ p, (t.link p).recvFwd.done = (s.link p).recvFwd.done) (b : ℕ) :
    fwdPending c t b = fwdPending c s b := by
  unfold fwdPending
  simp only [h]

theorem sendPending_setLink (hb : b < c.nNodes) (hne : b ≠ a) {l : Link}
    (hpending : (s.link (a, b)).sendTrans.done ≠ c.numSteps a b) :
    (sendPending c (s.setLink a b l) a).card =
      if c.numSteps a b = l.sendTrans.done then (sendPending c s a).card - 1
      else (sendPending c s a).card := by
  have hmem : b ∈ sendPending c s a := by
    unfold sendPending
    rw [Finset.mem_filter, Finset.mem_range]
    exact ⟨hb, hne, hpending⟩
  split
  · rename_i heq
    rw [← Finset.card_erase_of_mem hmem]
    congr 1
    ext d
    unfold sendPending
    by_cases hd : d = b
    · subst hd
      simp [heq]
    · simp [hd]
  · rename_i heq
    congr 1
    ext d
    unfold sendPending
    by_cases hd : d = b
    · subst hd
      simp [Ne.symm heq, hpending]
    · simp [hd]

theorem fwdPending_setLink (ha : a < c.nNodes) (hne : a ≠ b) {l : Link}
    (hpending : (s.link (a, b)).recvFwd.done ≠ c.numSteps a b) :
    (fwdPending c (s.setLink a b l) b).card =
      if l.recvFwd.done = c.numSteps a b then (fwdPending c s b).card - 1
      else (fwdPending c s b).card := by
  have hmem : a ∈ fwdPending c s b := by
    unfold fwdPending
    rw [Finset.mem_filter, Finset.mem_range]
    exact ⟨ha, hne, hpending⟩
  split
  · rename_i heq
    rw [← Finset.card_erase_of_mem hmem]
    congr 1
    ext d
    unfold fwdPending
    by_cases hd : d = a
    · subst hd
      simp [heq]
    · simp [hd]
  · rename_i heq
    congr 1
    ext d
    unfold fwdPending
    by_cases hd : d = a
    · subst hd
      simp [heq, hpending]
    · simp [hd]

namespace Inv

theorem initial (c : ExecConfig) : Inv c (ExecState.initial c) := by
  constructor
  · exact fun a _ b _ _ => LinkInv.initial c (c.numSteps a b)
  · intro a _
    change (sendNodes c a).card = _
    congr 1
    apply Finset.filter_congr
    intro b _
    have hpos := numSteps_pos_iff c a b
    have hzero : ((ExecState.initial c).link (a, b)).sendTrans.done = 0 := rfl
    rw [hzero]
    refine and_congr_right fun _ => ?_
    rw [← hpos]
    omega
  · intro b _
    change (fwdNodes c b).card = _
    congr 1
    apply Finset.filter_congr
    intro a _
    have hzero : ((ExecState.initial c).link (a, b)).recvFwd.done = 0 := rfl
    rw [hzero]
    refine and_congr_right fun _ => ?_
    omega
  · intro a _ h
    cases h
  · intro a _ h
    unfold ExecState.initial initialRank at h
    simp only at h
    split at h <;> cases h

section

variable (h : Inv c s)
include h

theorem setLink {l : Link} (hlink : LinkInv c (c.numSteps a b) l)
    (hsend : l.sendTrans.done = (s.link (a, b)).sendTrans.done)
    (hfwd : l.recvFwd.done = (s.link (a, b)).recvFwd.done) : Inv c (s.setLink a b l) := by
  have hlinks : ∀ p, ((s.setLink a b l).link p).sendTrans.done = (s.link p).sendTrans.done ∧
      ((s.setLink a b l).link p).recvFwd.done = (s.link p).recvFwd.done := by
    intro p
    by_cases hp : p = (a, b)
    · rw [hp, setLink_self]
      exact ⟨hsend, hfwd⟩
    · rw [setLink_of_ne hp]
      exact ⟨rfl, rfl⟩
  refine { h with links := ?_, send := ?_, fwd := ?_ }
  · intro a' ha' b' hb' hne'
    by_cases hp : (a', b') = (a, b)
    · rw [hp, setLink_self]
      cases hp
      exact hlink
    · rw [setLink_of_ne hp]
      exact h.links a' ha' b' hb' hne'
  · intro a' ha'
    rw [sendPending_congr fun p => (hlinks p).1]
    exact h.send a' ha'
  · intro b' hb'
    rw [fwdPending_congr fun p => (hlinks p).2]
    exact h.fwd b' hb'

theorem setRank {x : ExecRank} (hsend : x.numPendingSendNodes = (s.rank a).numPendingSendNodes)
    (hfwd : x.numPendingRecvFwdNodes = (s.rank a).numPendingRecvFwdNodes)
    (hintra : a < c.nNodes → x.fwdIntraDone = true → x.intraForwarded = true)
    (hfinished : a < c.nNodes → x.phase = .finished → x.numPendingSendNodes = 0 ∧
      x.numPendingRecvFwdNodes = 0 ∧ x.fwdIntraDone = true) : Inv c (s.setRank a x) := by
  refine ⟨h.links, ?_, ?_, ?_, ?_⟩
  · intro a' ha'
    by_cases heq : a' = a
    · subst heq
      rw [setRank_self, hsend]
      exact h.send a' ha'
    · rw [setRank_of_ne heq]
      exact h.send a' ha'
  · intro a' ha'
    by_cases heq : a' = a
    · subst heq
      rw [setRank_self, hfwd]
      exact h.fwd a' ha'
    · rw [setRank_of_ne heq]
      exact h.fwd a' ha'
  · intro a' ha'
    by_cases heq : a' = a
    · subst heq
      rw [setRank_self]
      exact hintra ha'
    · rw [setRank_of_ne heq]
      exact h.intra a' ha'
  · intro a' ha'
    by_cases heq : a' = a
    · subst heq
      rw [setRank_self]
      exact hfinished ha'
    · rw [setRank_of_ne heq]
      exact h.finished a' ha'

theorem setPhase {phase : ExecPhase} (hphase : phase ≠ .finished) : Inv c (s.setPhase a phase) :=
  h.setRank rfl rfl (h.intra a) fun _ heq => absurd heq hphase

/-- The put of a step has completed, the last one perhaps. -/
theorem pollSendTrans (ha : a < c.nNodes) (hb : b < c.nNodes) (hne : b ≠ a)
    (hphase : (s.rank a).phase = .progressSend)
    (hposted : (s.link (a, b)).sendTrans.done < (s.link (a, b)).sendTrans.posted)
    (hdone : (s.link (a, b)).sendTrans.done < (s.link (a, b)).putsDone) :
    Inv c ((s.setLink a b ((s.link (a, b)).pollSendTrans (c.numSteps a b))).setRank a
      { s.rank a with
        numPendingSendNodes :=
          if c.numSteps a b = (s.link (a, b)).sendTrans.done + 1 then
            (s.rank a).numPendingSendNodes - 1
          else (s.rank a).numPendingSendNodes }) := by
  have hlink := h.links a ha b hb hne.symm
  obtain ⟨_, _, hle, _⟩ := hlink.stages
  have hpending : (s.link (a, b)).sendTrans.done ≠ c.numSteps a b := by omega
  set l := (s.link (a, b)).pollSendTrans (c.numSteps a b)
  have hfwd : ∀ p, ((s.setLink a b l).link p).recvFwd.done = (s.link p).recvFwd.done := by
    intro p
    by_cases hp : p = (a, b)
    · rw [hp, setLink_self]
      rfl
    · rw [setLink_of_ne hp]
  refine ⟨?_, ?_, ?_, ?_, ?_⟩
  · intro a' ha' b' hb' hne'
    change LinkInv c (c.numSteps a' b') ((s.setLink a b l).link (a', b'))
    by_cases hp : (a', b') = (a, b)
    · rw [hp, setLink_self]
      cases hp
      exact hlink.pollSendTrans hdone
    · rw [setLink_of_ne hp]
      exact h.links a' ha' b' hb' hne'
  · intro a' ha'
    by_cases heq : a' = a
    · subst heq
      have hcard := sendPending_setLink (s := s) (l := l) hb hne hpending
      rw [setRank_self]
      simp only [h.send a' ha']
      exact hcard.symm
    · rw [setRank_of_ne heq]
      have hsame : sendPending c (s.setLink a b l) a' = sendPending c s a' := by
        unfold sendPending
        simp [heq]
      exact (h.send a' ha').trans (congrArg Finset.card hsame.symm)
  · intro b' hb'
    have hcard := congrArg Finset.card (fwdPending_congr (c := c) hfwd b')
    by_cases heq : b' = a
    · subst heq
      rw [setRank_self]
      exact (h.fwd b' hb').trans hcard.symm
    · rw [setRank_of_ne heq]
      exact (h.fwd b' hb').trans hcard.symm
  · intro a' ha'
    by_cases heq : a' = a
    · subst heq
      rw [setRank_self]
      exact h.intra a' ha'
    · rw [setRank_of_ne heq]
      exact h.intra a' ha'
  · intro a' ha'
    by_cases heq : a' = a
    · subst heq
      rw [setRank_self]
      intro hfin
      have hfin : (s.rank a').phase = .finished := hfin
      rw [hphase] at hfin
      cases hfin
    · rw [setRank_of_ne heq]
      exact h.finished a' ha'

/-- A step has been forwarded, the last one perhaps. -/
theorem pollFwd (ha : a < c.nNodes) (hb : b < c.nNodes) (hne : a ≠ b)
    (hphase : (s.rank b).phase = .progressFwd)
    (hposted : (s.link (a, b)).recvFwd.done < (s.link (a, b)).recvFwd.posted)
    (hdone : isComplete (s.link (a, b)).forwarded c.numFwdWorkers (s.link (a, b)).recvFwd.done) :
    Inv c ((s.setLink a b ((s.link (a, b)).pollFwd c (c.numSteps a b))).setRank b
      { s.rank b with
        numPendingRecvFwdNodes :=
          if (s.link (a, b)).recvFwd.done + 1 = c.numSteps a b then
            (s.rank b).numPendingRecvFwdNodes - 1
          else (s.rank b).numPendingRecvFwdNodes }) := by
  have hlink := h.links a ha b hb hne
  obtain ⟨_, _, hle, _⟩ := hlink.stages
  have hready := hlink.fwdReady
  have hfwdPosted := hlink.fwdPosted
  have hpending : (s.link (a, b)).recvFwd.done ≠ c.numSteps a b := by omega
  set l := (s.link (a, b)).pollFwd c (c.numSteps a b)
  have hsend : ∀ p, ((s.setLink a b l).link p).sendTrans.done = (s.link p).sendTrans.done := by
    intro p
    by_cases hp : p = (a, b)
    · rw [hp, setLink_self]
      rfl
    · rw [setLink_of_ne hp]
  refine ⟨?_, ?_, ?_, ?_, ?_⟩
  · intro a' ha' b' hb' hne'
    change LinkInv c (c.numSteps a' b') ((s.setLink a b l).link (a', b'))
    by_cases hp : (a', b') = (a, b)
    · rw [hp, setLink_self]
      cases hp
      exact hlink.pollFwd hposted hdone
    · rw [setLink_of_ne hp]
      exact h.links a' ha' b' hb' hne'
  · intro a' ha'
    have hcard := congrArg Finset.card (sendPending_congr (c := c) hsend a')
    by_cases heq : a' = b
    · subst heq
      rw [setRank_self]
      exact (h.send a' ha').trans hcard.symm
    · rw [setRank_of_ne heq]
      exact (h.send a' ha').trans hcard.symm
  · intro b' hb'
    by_cases heq : b' = b
    · subst heq
      have hcard := fwdPending_setLink (s := s) (l := l) ha hne hpending
      rw [setRank_self]
      simp only [h.fwd b' hb']
      exact hcard.symm
    · rw [setRank_of_ne heq]
      have hsame : fwdPending c (s.setLink a b l) b' = fwdPending c s b' := by
        unfold fwdPending
        simp [heq]
      exact (h.fwd b' hb').trans (congrArg Finset.card hsame.symm)
  · intro a' ha'
    by_cases heq : a' = b
    · subst heq
      rw [setRank_self]
      exact h.intra a' ha'
    · rw [setRank_of_ne heq]
      exact h.intra a' ha'
  · intro a' ha'
    by_cases heq : a' = b
    · subst heq
      rw [setRank_self]
      intro hfin
      have hfin : (s.rank a').phase = .finished := hfin
      rw [hphase] at hfin
      cases hfin
    · rw [setRank_of_ne heq]
      exact h.finished a' ha'

theorem step (hstep : Step c s t) : Inv c t := by
  cases hstep with
  | @send a b l ha hb hne _ _ hlink =>
    have hinv := (h.links a ha b hb hne.symm).send hlink
    cases hlink <;> exact h.setLink hinv rfl rfl
  | pollSendTrans ha hb hne hphase _ hposted hdone =>
    exact h.pollSendTrans ha hb hne hphase hposted hdone
  | @fwd a b l ha hb hne _ _ hlink =>
    have hinv := (h.links a ha b hb hne).fwd hlink
    cases hlink <;> exact h.setLink hinv rfl rfl
  | pollFwd ha hb hne hphase _ hposted hdone => exact h.pollFwd ha hb hne hphase hposted hdone
  | @env a b l ha hb hne hlink =>
    have hinv := (h.links a ha b hb hne).env hlink
    cases hlink <;> exact h.setLink hinv rfl rfl
  | @intraForward a _ _ => exact h.setRank rfl rfl (fun _ _ => rfl) (h.finished a)
  | @fwdIntra a _ hphase _ hdone =>
    refine h.setRank rfl rfl (fun _ _ => hdone) fun _ hfin => ?_
    have hfin : (s.rank a).phase = .finished := hfin
    rw [hphase] at hfin
    cases hfin
  | @leave a _ _ hsend hfwd hdone =>
    exact h.setRank rfl rfl (h.intra a) fun _ _ => ⟨hsend, hfwd, hdone⟩

theorem turn (hturn : Turn c s t) : Inv c t := by
  cases hturn with
  | sendEnd => exact h.setPhase nofun
  | intraEnd =>
    apply h.setPhase
    split <;> nofun
  | fwdEnd => exact h.setPhase nofun
  | again =>
    apply h.setPhase
    unfold ExecRank.top
    split <;> nofun

end

theorem of_reachable (h : Reachable c s) : Inv c s := by
  induction h with
  | refl => exact initial c
  | tail _ hlast ih =>
    rcases hlast with hstep | hturn
    · exact ih.step hstep
    · exact ih.turn hturn

end Inv
end ExecState
end TorchComms.AllToAllvDedup
