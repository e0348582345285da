import Mathlib.Algebra.Order.Group.Nat
import Mathlib.Data.List.Basic

/-! # Chunks from a sending to a forwarding rank

The blocks for a node go to the rank of the same rail there, a chunk at a step. On the sender the
kernel copies a step into a temporary chunk and the host puts it; on the forwarder the host sees the
notification and the kernel forwards the step. The forwarder reports a forwarded step with a control
message, but for the last steps, and the sender waits for it before it uses a remote chunk again.
-/
namespace TorchComms.AllToAllvDedup
open Function

/-- The nodes of a rail, the blocks that each has for each other, and the chunks. The hosts divide by
the number of blocks that a chunk has room for. The kernel and the host of a rank synchronize through
one flag for each worker. -/
structure ExecConfig where
  nNodes : ℕ
  numBlocks : ℕ → ℕ → ℕ
  NUM_CHUNKS : ℕ
  maxNumBlocksPerChunk : ℕ
  numSendWorkers : ℕ
  numFwdWorkers : ℕ
  NUM_CHUNKS_pos : 1 ≤ NUM_CHUNKS
  maxNumBlocksPerChunk_pos : 1 ≤ maxNumBlocksPerChunk
  numSendWorkers_pos : 1 ≤ numSendWorkers
  numFwdWorkers_pos : 1 ≤ numFwdWorkers

structure StepState where
  ready : ℕ
  posted : ℕ
  done : ℕ
  deriving DecidableEq, Repr

/-- What a sending and a forwarding rank keep about each other, and what is between them: `copied`
and `forwarded` are the steps that the workers of the two kernels have completed, `putsDone` and
`notified` the puts that have completed and the notifications that have arrived, `ctrlsArrived` the
control messages that have arrived. -/
structure Link where
  sendCopy : StepState
  sendTrans : StepState
  fwdChunkRSyncReqs : List ℕ
  recvTransDone : ℕ
  recvFwd : StepState
  fwdChunkSSyncReqs : List ℕ
  copied : ℕ → ℕ
  forwarded : ℕ → ℕ
  putsDone : ℕ
  notified : ℕ
  ctrlsArrived : ℕ

/-- All workers have completed the step. -/
def isComplete (completed : ℕ → ℕ) (nworkers step : ℕ) : Prop := ∀ w < nworkers, step < completed w

namespace ExecConfig

variable (c : ExecConfig)

def numSteps (a b : ℕ) : ℕ :=
  (c.numBlocks a b + c.maxNumBlocksPerChunk - 1) / c.maxNumBlocksPerChunk

/-- The temporary chunk of a step, on both sides. -/
def getTmpChunkIdx (step : ℕ) : ℕ := step &&& (c.NUM_CHUNKS - 1)

/-- The kernels count the blocks that are left after as many steps. -/
def numPendingBlocks (a b steps : ℕ) : ℕ := c.numBlocks a b - steps * c.maxNumBlocksPerChunk

end ExecConfig

namespace Link

variable (c : ExecConfig)

def initial (n : ℕ) : Link where
  sendCopy := ⟨min n c.NUM_CHUNKS, 0, 0⟩
  sendTrans := ⟨0, 0, 0⟩
  fwdChunkRSyncReqs := []
  recvTransDone := 0
  recvFwd := ⟨0, 0, 0⟩
  fwdChunkSSyncReqs := []
  copied := fun _ => 0
  forwarded := fun _ => 0
  putsDone := 0
  notified := 0
  ctrlsArrived := 0

/-- The rounds of the loops of `progressSend` over the steps that leave the link pending. The request
for a step has completed when its control message has arrived, for requests and messages are matched
in order. -/
inductive SendStep : Link → Link → Prop
  | postSendCopy {l : Link} (h : l.sendCopy.posted < l.sendCopy.ready) :
      SendStep l { l with sendCopy.posted := l.sendCopy.posted + 1 }
  | pollSendCopy {l : Link} {step : ℕ} (hdone : l.sendCopy.done ≤ step)
      (hposted : step < l.sendCopy.posted) (h : isComplete l.copied c.numSendWorkers step) :
      SendStep l { l with
        sendCopy.done := l.sendCopy.done + 1
        sendTrans.ready := l.sendTrans.ready + 1 }
  | irecvCtrl {l : Link} (h : l.sendTrans.posted < l.sendTrans.ready)
      (hround : c.NUM_CHUNKS ≤ l.sendTrans.posted)
      (hnew : l.sendTrans.posted ∉ l.fwdChunkRSyncReqs) :
      SendStep l { l with fwdChunkRSyncReqs := l.fwdChunkRSyncReqs ++ [l.sendTrans.posted] }
  | iput {l : Link} (h : l.sendTrans.posted < l.sendTrans.ready)
      (hready : l.sendTrans.posted < c.NUM_CHUNKS ∨
        ∃ i < l.ctrlsArrived, l.fwdChunkRSyncReqs[i]? = some l.sendTrans.posted) :
      SendStep l { l with sendTrans.posted := l.sendTrans.posted + 1 }

/-- The put of the next step has completed: its chunk is free for another copy, if there is one. -/
def pollSendTrans (n : ℕ) (l : Link) : Link :=
  { l with
    sendTrans.done := l.sendTrans.done + 1
    sendCopy.ready := if n = l.sendTrans.done + 1 then l.sendCopy.ready else l.sendCopy.ready + 1 }

/-- The rounds of the loops of `progressFwd` over the steps that leave the link pending. -/
inductive FwdStep (n : ℕ) : Link → Link → Prop
  | pollFwdTrans {l : Link} (h : l.recvTransDone < n) (hnotify : l.recvTransDone < l.notified) :
      FwdStep n l { l with
        recvTransDone := l.recvTransDone + 1
        recvFwd.ready := l.recvFwd.ready + 1 }
  | postFwd {l : Link} (h : l.recvFwd.posted < l.recvFwd.ready) :
      FwdStep n l { l with recvFwd.posted := l.recvFwd.posted + 1 }

def postFwdChunkReady (n step : ℕ) (reqs : List ℕ) : List ℕ :=
  if n - step ≤ c.NUM_CHUNKS then reqs else reqs ++ [step]

/-- The next step has been forwarded. -/
def pollFwd (n : ℕ) (l : Link) : Link :=
  { l with
    recvFwd.done := l.recvFwd.done + 1
    fwdChunkSSyncReqs :=
      if l.recvFwd.done + 1 = n then l.fwdChunkSSyncReqs
      else postFwdChunkReady c n l.recvFwd.done l.fwdChunkSSyncReqs }

/-- The workers of the two kernels, in the order of the steps and as far as the steps are posted and
blocks are left, and the network. -/
inductive EnvStep (a b : ℕ) : Link → Link → Prop
  | sendCopy {l : Link} {w : ℕ} (hw : w < c.numSendWorkers)
      (hposted : l.copied w < l.sendCopy.posted) (h : c.numPendingBlocks a b (l.copied w) ≠ 0) :
      EnvStep a b l { l with copied := update l.copied w (l.copied w + 1) }
  | recvFwd {l : Link} {w : ℕ} (hw : w < c.numFwdWorkers)
      (hposted : l.forwarded w < l.recvFwd.posted) (h : c.numPendingBlocks a b (l.forwarded w) ≠ 0) :
      EnvStep a b l { l with forwarded := update l.forwarded w (l.forwarded w + 1) }
  | putDone {l : Link} (h : l.putsDone < l.sendTrans.posted) :
      EnvStep a b l { l with putsDone := l.putsDone + 1 }
  | notify {l : Link} (h : l.notified < l.sendTrans.posted) :
      EnvStep a b l { l with notified := l.notified + 1 }
  | ctrl {l : Link} (h : l.ctrlsArrived < l.fwdChunkSSyncReqs.length) :
      EnvStep a b l { l with ctrlsArrived := l.ctrlsArrived + 1 }

end Link

/-! ### What holds of a link -/

theorem ExecConfig.lt_numSteps_iff (c : ExecConfig) (a b step : ℕ) :
    step < c.numSteps a b ↔ c.numPendingBlocks a b step ≠ 0 := by
  have hpos := c.maxNumBlocksPerChunk_pos
  unfold numSteps numPendingBlocks
  rw [Nat.lt_iff_add_one_le, Nat.le_div_iff_mul_le hpos, Nat.succ_mul]
  omega

structure LinkInv (c : ExecConfig) (n : ℕ) (l : Link) : Prop where
  copyReady : l.sendCopy.ready = min n c.NUM_CHUNKS + min l.sendTrans.done (n - 1)
  copyPosted : l.sendCopy.posted ≤ l.sendCopy.ready
  copyDone : l.sendCopy.done ≤ l.sendCopy.posted
  copied : ∀ w < c.numSendWorkers, l.sendCopy.done ≤ l.copied w ∧ l.copied w ≤ l.sendCopy.posted ∧
    l.copied w ≤ n
  transReady : l.sendTrans.ready = l.sendCopy.done
  transPosted : l.sendTrans.posted ≤ l.sendTrans.ready
  putsDone : l.sendTrans.done ≤ l.putsDone ∧ l.putsDone ≤ l.sendTrans.posted
  notified : l.recvTransDone ≤ l.notified ∧ l.notified ≤ l.sendTrans.posted
  rsyncReqs : l.fwdChunkRSyncReqs = List.range' c.NUM_CHUNKS l.fwdChunkRSyncReqs.length
  rsyncLength : l.sendTrans.posted - c.NUM_CHUNKS ≤ l.fwdChunkRSyncReqs.length ∧
    l.fwdChunkRSyncReqs.length ≤ l.sendTrans.posted + 1 - c.NUM_CHUNKS
  credit : l.sendTrans.posted ≤ c.NUM_CHUNKS + l.ctrlsArrived
  ctrls : l.ctrlsArrived ≤ l.fwdChunkSSyncReqs.length
  ssyncReqs : l.fwdChunkSSyncReqs = List.range (min l.recvFwd.done (n - c.NUM_CHUNKS))
  fwdReady : l.recvFwd.ready = l.recvTransDone
  fwdPosted : l.recvFwd.posted ≤ l.recvFwd.ready
  fwdDone : l.recvFwd.done ≤ l.recvFwd.posted
  forwarded : ∀ w < c.numFwdWorkers, l.recvFwd.done ≤ l.forwarded w ∧
    l.forwarded w ≤ l.recvFwd.posted

namespace LinkInv

variable {c : ExecConfig} {n a b : ℕ} {l l' : Link}

theorem initial (c : ExecConfig) (n : ℕ) : LinkInv c n (Link.initial c n) := by
  constructor <;> simp [Link.initial]

section

variable (h : LinkInv c n l)
include h

theorem copyDone_le : l.sendCopy.done ≤ n :=
  (h.copied 0 c.numSendWorkers_pos).1.trans (h.copied 0 c.numSendWorkers_pos).2.2

theorem stages : l.recvFwd.done ≤ l.recvTransDone ∧
    l.recvTransDone ≤ l.sendTrans.posted ∧ l.sendTrans.posted ≤ n ∧ l.sendTrans.done ≤ n := by
  have := h.copyDone_le
  have := h.transReady
  have := h.transPosted
  have := h.putsDone
  have := h.notified
  have := h.fwdReady
  have := h.fwdPosted
  have := h.fwdDone
  omega

theorem ssyncLength : l.fwdChunkSSyncReqs.length = min l.recvFwd.done (n - c.NUM_CHUNKS) := by
  rw [h.ssyncReqs, List.length_range]

theorem send (hstep : Link.SendStep c l l') : LinkInv c n l' := by
  cases hstep with
  | postSendCopy hready =>
    refine { h with copyPosted := hready, copyDone := Nat.le_succ_of_le h.copyDone, copied := ?_ }
    intro w hw
    obtain ⟨h1, h2, h3⟩ := h.copied w hw
    exact ⟨h1, Nat.le_succ_of_le h2, h3⟩
  | pollSendCopy hdone hposted hcomplete =>
    have hnext : ∀ w < c.numSendWorkers, l.sendCopy.done + 1 ≤ l.copied w :=
      fun w hw => (Nat.succ_le_succ hdone).trans (hcomplete w hw)
    refine { h with
      copyDone := hdone.trans_lt hposted
      copied := fun w hw => ⟨hnext w hw, (h.copied w hw).2⟩
      transReady := congrArg Nat.succ h.transReady
      transPosted := Nat.le_succ_of_le h.transPosted }
  | irecvCtrl _ hround hnew =>
    obtain ⟨hlow, hhigh⟩ := h.rsyncLength
    have hlen : l.sendTrans.posted = c.NUM_CHUNKS + l.fwdChunkRSyncReqs.length := by
      rw [h.rsyncReqs, List.mem_range'_1] at hnew
      omega
    refine { h with rsyncReqs := ?_, rsyncLength := ?_ }
    · rw [List.length_append, List.length_singleton, List.range'_1_concat, ← h.rsyncReqs, hlen]
    · simp only [List.length_append, List.length_singleton]
      omega
  | iput hready hround =>
    obtain ⟨hlow, hhigh⟩ := h.rsyncLength
    have hput := h.putsDone
    have hnotify := h.notified
    have hcredit : l.sendTrans.posted + 1 ≤ c.NUM_CHUNKS + l.ctrlsArrived ∧
        l.sendTrans.posted + 1 - c.NUM_CHUNKS ≤ l.fwdChunkRSyncReqs.length := by
      rcases hround with hfirst | ⟨i, hi, hreq⟩
      · omega
      · obtain ⟨hlt, hget⟩ := List.getElem?_eq_some_iff.mp hreq
        rw [h.rsyncReqs, List.getElem?_range' hlt] at hreq
        have := Option.some.inj hreq
        omega
    refine { h with
      transPosted := hready
      putsDone := ⟨hput.1, by simp only; omega⟩
      notified := ⟨hnotify.1, by simp only; omega⟩
      rsyncLength := ⟨hcredit.2, by simp only; omega⟩
      credit := hcredit.1 }

theorem pollSendTrans (hdone : l.sendTrans.done < l.putsDone) : LinkInv c n (l.pollSendTrans n) := by
  have hput := h.putsDone
  have hready := h.copyReady
  have hposted := h.copyPosted
  have hstages := h.stages
  refine { h with
    copyReady := ?_
    copyPosted := ?_
    putsDone := ⟨hdone, hput.2⟩ }
  · simp only [Link.pollSendTrans]
    split <;> omega
  · simp only [Link.pollSendTrans]
    split <;> omega

theorem fwd (hstep : Link.FwdStep n l l') : LinkInv c n l' := by
  cases hstep with
  | pollFwdTrans _ hnotify =>
    refine { h with
      notified := ⟨hnotify, h.notified.2⟩
      fwdReady := congrArg Nat.succ h.fwdReady
      fwdPosted := Nat.le_succ_of_le h.fwdPosted }
  | postFwd hready =>
    refine { h with
      fwdPosted := hready
      fwdDone := Nat.le_succ_of_le h.fwdDone
      forwarded := fun w hw => ⟨(h.forwarded w hw).1, Nat.le_succ_of_le (h.forwarded w hw).2⟩ }

theorem pollFwd (hposted : l.recvFwd.done < l.recvFwd.posted)
    (hcomplete : isComplete l.forwarded c.numFwdWorkers l.recvFwd.done) :
    LinkInv c n (l.pollFwd c n) := by
  have hstages := h.stages
  have hready := h.fwdReady
  have hfwd := h.fwdPosted
  have hpos := c.NUM_CHUNKS_pos
  have hreqs : (l.pollFwd c n).fwdChunkSSyncReqs =
      List.range (min (l.recvFwd.done + 1) (n - c.NUM_CHUNKS)) := by
    unfold Link.pollFwd Link.postFwdChunkReady
    simp only
    split
    · rw [h.ssyncReqs]
      congr 1
      omega
    · split
      · rw [h.ssyncReqs]
        congr 1
        omega
      · rw [h.ssyncReqs, Nat.min_eq_left (by omega), Nat.min_eq_left (by omega), List.range_succ]
  have hctrls : l.ctrlsArrived ≤ (l.pollFwd c n).fwdChunkSSyncReqs.length := by
    have hold := h.ctrls
    rw [h.ssyncLength] at hold
    rw [hreqs, List.length_range]
    omega
  exact { h with
    ctrls := hctrls
    ssyncReqs := hreqs
    fwdDone := hposted
    forwarded := fun w hw => ⟨hcomplete w hw, (h.forwarded w hw).2⟩ }

end

theorem env (h : LinkInv c (c.numSteps a b) l) (hstep : Link.EnvStep c a b l l') :
    LinkInv c (c.numSteps a b) l' := by
  cases hstep with
  | @sendCopy w hw hposted hpending =>
    refine { h with copied := ?_ }
    intro v hv
    obtain ⟨h1, h2, h3⟩ := h.copied v hv
    by_cases hvw : v = w
    · subst hvw
      simp only [update_self]
      rw [← c.lt_numSteps_iff] at hpending
      omega
    · simp only [update_of_ne hvw]
      exact ⟨h1, h2, h3⟩
  | @recvFwd w hw hposted _ =>
    refine { h with forwarded := ?_ }
    intro v hv
    obtain ⟨h1, h2⟩ := h.forwarded v hv
    by_cases hvw : v = w
    · subst hvw
      simp only [update_self]
      omega
    · simp only [update_of_ne hvw]
      exact ⟨h1, h2⟩
  | putDone hput =>
    refine { h with putsDone := ⟨Nat.le_succ_of_le h.putsDone.1, hput⟩ }
  | notify hput =>
    refine { h with notified := ⟨Nat.le_succ_of_le h.notified.1, hput⟩ }
  | ctrl hsent =>
    refine { h with credit := ?_, ctrls := hsent }
    have := h.credit
    simp only
    omega

end LinkInv
end TorchComms.AllToAllvDedup
