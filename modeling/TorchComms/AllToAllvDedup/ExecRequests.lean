import TorchComms.AllToAllvDedup.ExecFinish

/-! # Requests at the end of the loop

The loop of a rank tests its puts and the control messages that it receives. It never tests the
control messages that it sends: these may have arrived, and the loop may have ended, before the rank
has seen them complete.
-/
namespace TorchComms.AllToAllvDedup
open Function

/-- `ctrlsSent` are the control messages on a link that have completed at the forwarding rank. -/
structure RequestState where
  exec : ExecState
  ctrlsSent : ℕ × ℕ → ℕ

namespace RequestState

variable {c : ExecConfig} {s t : RequestState} {a b r : ℕ}

/-- The steps of the ranks, the kernels and the network, and the completions of the control messages
at their senders, which come in no order with the arrivals. -/
inductive Step (c : ExecConfig) : RequestState → RequestState → Prop
  | exec {s : RequestState} {x : ExecState} (h : ExecState.Step c s.exec x ∨ ExecState.Turn c s.exec x) :
      Step c s { s with exec := x }
  | ctrlSent {s : RequestState} {a b : ℕ} (ha : a < c.nNodes) (hb : b < c.nNodes) (hne : a ≠ b)
      (h : s.ctrlsSent (a, b) < (s.exec.link (a, b)).fwdChunkSSyncReqs.length) :
      Step c s { s with ctrlsSent := update s.ctrlsSent (a, b) (s.ctrlsSent (a, b) + 1) }

def Reachable (c : ExecConfig) : RequestState → Prop :=
  Relation.ReflTransGen (Step c) ⟨ExecState.initial c, fun _ => 0⟩

/-- The puts, the control messages to receive and those to send that a rank has issued have
completed. -/
structure Completed (c : ExecConfig) (s : RequestState) (r : ℕ) : Prop where
  puts : ∀ b < c.nNodes, r ≠ b → ∀ step < (s.exec.link (r, b)).sendTrans.posted,
    step < (s.exec.link (r, b)).putsDone
  recvCtrls : ∀ b < c.nNodes, r ≠ b →
    (s.exec.link (r, b)).fwdChunkRSyncReqs.length ≤ (s.exec.link (r, b)).ctrlsArrived
  sendCtrls : ∀ a < c.nNodes, a ≠ r →
    (s.exec.link (a, r)).fwdChunkSSyncReqs.length ≤ s.ctrlsSent (a, r)

/-! ### The control messages to receive -/

/-- Control messages are received for steps that are ready only. -/
def Asked (c : ExecConfig) (x : ExecState) : Prop :=
  ∀ a < c.nNodes, ∀ b < c.nNodes, a ≠ b → ∀ step ∈ (x.link (a, b)).fwdChunkRSyncReqs,
    step < (x.link (a, b)).sendTrans.ready

theorem Asked.setLink {x : ExecState} (h : Asked c x) (ha : a < c.nNodes) (hb : b < c.nNodes)
    (hne : a ≠ b) {l : Link} (hlink : (∀ step ∈ (x.link (a, b)).fwdChunkRSyncReqs,
      step < (x.link (a, b)).sendTrans.ready) →
        ∀ step ∈ l.fwdChunkRSyncReqs, step < l.sendTrans.ready) : Asked c (x.setLink a b l) := by
  intro a' ha' b' hb' hne'
  by_cases hp : (a', b') = (a, b)
  · rw [hp, ExecState.setLink_self]
    exact hlink (h a ha b hb hne)
  · rw [ExecState.setLink_of_ne hp]
    exact h a' ha' b' hb' hne'

theorem Asked.send {l l' : Link} (hstep : Link.SendStep c l l')
    (h : ∀ step ∈ l.fwdChunkRSyncReqs, step < l.sendTrans.ready) :
    ∀ step ∈ l'.fwdChunkRSyncReqs, step < l'.sendTrans.ready := by
  cases hstep with
  | postSendCopy => exact h
  | pollSendCopy => exact fun step hmem => Nat.lt_succ_of_lt (h step hmem)
  | irecvCtrl hready =>
    intro step hmem
    rcases List.mem_append.mp hmem with hmem | hmem
    · exact h step hmem
    · rw [List.mem_singleton.mp hmem]
      exact hready
  | iput => exact h

variable {x y : ExecState}

theorem Asked.step (h : Asked c x) (hstep : ExecState.Step c x y) : Asked c y := by
  cases hstep with
  | send ha hb hne _ _ hl => exact h.setLink ha hb hne.symm (Asked.send hl)
  | pollSendTrans ha hb hne => exact h.setLink ha hb hne.symm id
  | fwd ha hb hne _ _ hl => exact h.setLink ha hb hne (by cases hl <;> exact id)
  | pollFwd ha hb hne => exact h.setLink ha hb hne id
  | env ha hb hne hl => exact h.setLink ha hb hne (by cases hl <;> exact id)
  | intraForward => exact h
  | fwdIntra => exact h
  | leave => exact h

theorem Asked.turn (h : Asked c x) (hturn : ExecState.Turn c x y) : Asked c y := by
  cases hturn <;> exact h

theorem asked_initial : Asked c (ExecState.initial c) :=
  fun _ _ _ _ _ _ hmem => absurd hmem List.not_mem_nil

/-! ### Runs -/

theorem exec_of_reachable (h : Reachable c s) : ExecState.Reachable c s.exec ∧ Asked c s.exec := by
  induction h with
  | refl => exact ⟨.refl, asked_initial⟩
  | tail _ hstep ih =>
    cases hstep with
    | exec hexec => exact ⟨ih.1.tail hexec, hexec.elim ih.2.step ih.2.turn⟩
    | ctrlSent => exact ih

theorem reachable_of_exec {x : ExecState} (h : ExecState.Reachable c x) :
    Reachable c ⟨x, fun _ => 0⟩ := by
  induction h with
  | refl => exact .refl
  | tail _ hstep ih => exact ih.tail (.exec hstep)

/-- Whatever the numbers of steps are, the loop has tested the puts and the control messages to
receive. -/
theorem tested_of_finished (h : Reachable c s) (hr : r < c.nNodes) (hb : b < c.nNodes) (hne : r ≠ b)
    (hfin : (s.exec.rank r).phase = .finished) :
    (s.exec.link (r, b)).sendTrans.posted ≤ (s.exec.link (r, b)).putsDone ∧
      (s.exec.link (r, b)).fwdChunkRSyncReqs.length ≤ (s.exec.link (r, b)).ctrlsArrived := by
  have hinv := ExecState.Inv.of_reachable (exec_of_reachable h).1
  have hlink := hinv.links r hr b hb hne
  have hdone := hinv.sent_of_finished hr hb hne hfin
  have hstages := hlink.stages
  have hputs := hlink.putsDone
  have hcredit := hlink.credit
  have hready := hlink.transReady
  have hcopied := hlink.copyDone_le
  refine ⟨by omega, ?_⟩
  by_contra hlt
  have hlast : c.NUM_CHUNKS + ((s.exec.link (r, b)).fwdChunkRSyncReqs.length - 1) ∈
      (s.exec.link (r, b)).fwdChunkRSyncReqs := by
    rw [hlink.rsyncReqs, List.mem_range'_1, List.length_range']
    omega
  have hasked := (exec_of_reachable h).2 r hr b hb hne _ hlast
  omega

theorem completed_of_finished (h : Reachable c s) (hr : r < c.nNodes)
    (hfin : (s.exec.rank r).phase = .finished)
    (hsteps : ∀ a < c.nNodes, a ≠ r → c.numSteps a r ≤ c.NUM_CHUNKS) : Completed c s r where
  puts := fun _ hb hne _ hstep => hstep.trans_le (tested_of_finished h hr hb hne hfin).1
  recvCtrls := fun _ hb hne => (tested_of_finished h hr hb hne hfin).2
  sendCtrls := by
    intro a ha hne
    have hlength :=
      ((ExecState.Inv.of_reachable (exec_of_reachable h).1).links a ha r hr hne).ssyncLength
    have hle := hsteps a ha hne
    omega

theorem exists_not_completed (ha : a < c.nNodes) (hb : b < c.nNodes) (hne : a ≠ b)
    (hsteps : c.NUM_CHUNKS < c.numSteps a b) :
    ∃ s, Reachable c s ∧ (s.exec.rank b).phase = .finished ∧ ¬ Completed c s b := by
  rcases ExecState.exists_finished c with ⟨x, hx, hfin⟩
  refine ⟨⟨x, fun _ => 0⟩, reachable_of_exec hx, hfin b hb, fun hcompleted => ?_⟩
  have hinv := ExecState.Inv.of_reachable hx
  have hlength := (hinv.links a ha b hb hne).ssyncLength
  have hle := hcompleted.sendCtrls a ha hne
  rw [hinv.forwarded_of_finished ha hb hne (hfin b hb)] at hlength
  simp only at hle
  omega

/-- No rank finishes before its requests have completed, in any run, exactly where no node has more
steps for another than there are chunks, so that no control message is sent. -/
theorem completed_iff (c : ExecConfig) :
    (∀ s, Reachable c s → ∀ r < c.nNodes, (s.exec.rank r).phase = .finished → Completed c s r) ↔
      ∀ a < c.nNodes, ∀ b < c.nNodes, a ≠ b → c.numSteps a b ≤ c.NUM_CHUNKS := by
  constructor
  · intro hall a ha b hb hne
    by_contra hmany
    rcases exists_not_completed ha hb hne (by omega) with ⟨s, hs, hfin, hnot⟩
    exact hnot (hall s hs b hb hfin)
  · exact fun hsteps s hs r hr hfin =>
      completed_of_finished hs hr hfin fun a ha hne => hsteps a ha r hr hne

/-- Three steps and two chunks: one control message is sent. -/
theorem not_completed_twoNodes : ¬ ∀ s, Reachable ExecState.twoNodes s →
    ∀ r < ExecState.twoNodes.nNodes, (s.exec.rank r).phase = .finished →
      Completed ExecState.twoNodes s r := by
  intro hall
  rcases exists_not_completed (c := ExecState.twoNodes) (a := 0) (b := 1) (by decide) (by decide)
    (by decide) (by decide) with ⟨s, hs, hfin, hnot⟩
  exact hnot (hall s hs 1 (by decide) hfin)

end RequestState
end TorchComms.AllToAllvDedup
