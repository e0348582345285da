import TorchComms.Ibverbx.SendSide

/-! # Runs of a virtual QP

A virtual QP alone, with any posts, any completions that its physical QPs can report and any
requests for a notification. A call that returns an error leaves the virtual QP as it is.
-/
namespace TorchComms.Ibverbx

open Foundation

namespace IbvVirtualQp

inductive Op where
  | postSend (sendWr : IbvSendWr)
  | postRecv (recvWr : IbvRecvWr)
  | sendCompletion (qpIdx : Option ℕ)
  | recvCompletion (qpIdx : Option ℕ) (immData : ℕ)
  | sendNotify (wrId physicalQpNum : ℕ)
deriving DecidableEq

/-- The request of the next send completion of a QP, and the virtual QP that receives it. -/
def nextSend (v : IbvVirtualQp) (qpIdx : Option ℕ) : Option (VirtualQpRequest × IbvVirtualQp) := do
  let q ← v.qp? qpIdx
  let (wqe, q') ← q.completeSend
  some (⟨.SEND, wqe.wr.wr_id, q.qp_num, 0⟩, v.setQp qpIdx q')

def nextRecv (v : IbvVirtualQp) (qpIdx : Option ℕ) (immData : ℕ) :
    Option (VirtualQpRequest × IbvVirtualQp) := do
  let q ← v.qp? qpIdx
  let (wqe, q') ← q.completeRecv
  some (⟨.RECV, wqe.wr.wr_id, q.qp_num, immData⟩, v.setQp qpIdx q')

/-- Go on after a call, also after one that returned an error. -/
def after {α : Type} (v : IbvVirtualQp) (r : Except Fault (α × IbvVirtualQp)) :
    Except Fault IbvVirtualQp :=
  match r with
  | .ok (_, v') => .ok v'
  | .error (.error _) => .ok v
  | .error e => .error e

def process (v : IbvVirtualQp) (request : VirtualQpRequest) : Except Fault IbvVirtualQp :=
  v.after (v.processRequest request)

def step (v : IbvVirtualQp) : Op → Except Fault IbvVirtualQp
  | .postSend sendWr => v.after (v.postSend sendWr)
  | .postRecv recvWr => v.after (v.postRecv recvWr)
  | .sendCompletion qpIdx => (v.nextSend qpIdx).elim (.ok v) fun r => r.2.process r.1
  | .recvCompletion qpIdx immData => (v.nextRecv qpIdx immData).elim (.ok v) fun r => r.2.process r.1
  | .sendNotify wrId physicalQpNum => v.process ⟨.SEND_NOTIFY, wrId, physicalQpNum, 0⟩

variable {v v' : IbvVirtualQp} {w : VirtualSendWr} {rest : List VirtualSendWr} {i : ℕ}

theorem after_of_ok {α : Type} {r : Except Fault (α × IbvVirtualQp)} (h : v.after r = .ok v') :
    v' = v ∨ ∃ a, r = .ok (a, v') := by
  unfold after at h
  split at h
  · cases h
    exact Or.inr ⟨_, rfl⟩
  · cases h
    exact Or.inl rfl
  · cases h

/-! ### One segment -/

/-- The address that a segment is written to or read from. -/
def remoteAddr (w : VirtualSendWr) : ℕ :=
  match w.wr.opcode with
  | .IBV_WR_RDMA_WRITE | .IBV_WR_RDMA_WRITE_WITH_IMM | .IBV_WR_RDMA_READ =>
    u64 (w.wr.remote_addr + w.offset)
  | _ => 0

/-- Only in DQPLB mode is a segment posted with immediate data, and numbered. -/
def Stamped (v : IbvVirtualQp) (w : VirtualSendWr) (wr : IbvSendWr) (tracker : DqplbSeqTracker) :
    Prop :=
  if w.wr.opcode = .IBV_WR_RDMA_WRITE_WITH_IMM ∧ v.loadBalancingScheme_ = .DQPLB then
    wr.opcode = .IBV_WR_RDMA_WRITE_WITH_IMM ∧
      (wr.imm_data, tracker) = v.dqplbSeqTracker.getSendImm w.remainingMsgCnt
  else wr.opcode ≠ .IBV_WR_RDMA_WRITE_WITH_IMM ∧ tracker = v.dqplbSeqTracker

variable {wr : IbvSendWr}

theorem updatePhysicalSendWr_of_ok
    (h : v.updatePhysicalSendWrFromVirtualSendWr w = .ok (wr, v')) :
    ∃ g tracker, w.wr.sg_list = some g ∧ v' = { v with
        nextPhysicalWrId_ := v.nextPhysicalWrId_ + 1, dqplbSeqTracker := tracker } ∧
      wr.wr_id = v.nextPhysicalWrId_ ∧ wr.remote_addr = remoteAddr w ∧
      wr.sg_list = some ⟨u64 (g.addr + w.offset),
        u32 (min (i32 (u32 (g.length - w.offset))) v.maxMsgSize_), g.lkey⟩ ∧
      Stamped v w wr tracker ∧
      (w.wr.opcode = .IBV_WR_RDMA_WRITE ∨ w.wr.opcode = .IBV_WR_RDMA_WRITE_WITH_IMM ∨
        w.wr.opcode = .IBV_WR_RDMA_READ ∨ w.wr.opcode = .IBV_WR_SEND → w.wr.Reported → wr.signaled) := by
  cases hg : w.wr.sg_list with
  | none =>
    simp only [updatePhysicalSendWrFromVirtualSendWr, hg] at h
    cases h
  | some g =>
    have hset : IBV_SEND_SIGNALED ≠ 0 := by decide
    simp only [updatePhysicalSendWrFromVirtualSendWr, hg] at h
    cases hop : w.wr.opcode <;> cases hscheme : v.loadBalancingScheme_ <;>
      simp only [hop, hscheme, reduceCtorEq, and_self, and_true, if_true,
        if_false] at h <;> cases h <;>
      exact ⟨g, _, rfl, rfl, rfl, by simp only [remoteAddr, hop], rfl, by simp [Stamped, hop, hscheme],
        by simp [hop, IbvSendWr.Reported, IbvSendWr.signaled, hset]⟩

/-- The queue after one segment of its front. -/
def advanced (w : VirtualSendWr) (rest : List VirtualSendWr) (length : ℕ) : List VirtualSendWr :=
  if w.remainingMsgCnt - 1 = 0 ∨ w.remainingMsgCnt - 1 = 1 ∧ w.sendExtraNotifyImm then rest
  else { w with
    offset := i32 (u32 (w.offset + length)), remainingMsgCnt := w.remainingMsgCnt - 1 } :: rest

theorem advance_queue (v : IbvVirtualQp) (w : VirtualSendWr) (rest : List VirtualSendWr)
    (length : ℕ) : ∃ ns, v.advance w rest length = { v with
      pendingSendVirtualWrQue_ := advanced w rest length
      pendingSendNotifyVirtualWrQue_ := ns } := by
  by_cases hzero : w.remainingMsgCnt - 1 = 0
  · refine ⟨v.pendingSendNotifyVirtualWrQue_, ?_⟩
    simp only [advance, advanced, hzero, true_or, if_true]
  · by_cases hone : w.remainingMsgCnt - 1 = 1 ∧ w.sendExtraNotifyImm
    · refine ⟨v.pendingSendNotifyVirtualWrQue_ ++ [{ w with
        offset := i32 (u32 (w.offset + length)), remainingMsgCnt := w.remainingMsgCnt - 1 }], ?_⟩
      simp only [advance, advanced, hone, one_ne_zero, and_self, or_true, if_true, if_false]
    · refine ⟨v.pendingSendNotifyVirtualWrQue_, ?_⟩
      simp only [advance, advanced, hzero, hone, or_self, if_false]

theorem postSegment_of_ok (h : v.postSegment i w rest = .ok v') :
    ∃ q wr g tracker ns, v.physicalQps_[i]? = some q ∧ w.wr.sg_list = some g ∧
      wr.wr_id = v.nextPhysicalWrId_ ∧ wr.remote_addr = remoteAddr w ∧
      wr.sg_list = some ⟨u64 (g.addr + w.offset),
        u32 (min (i32 (u32 (g.length - w.offset))) v.maxMsgSize_), g.lkey⟩ ∧
      Stamped v w wr tracker ∧
      (w.wr.opcode = .IBV_WR_RDMA_WRITE ∨ w.wr.opcode = .IBV_WR_RDMA_WRITE_WITH_IMM ∨
        w.wr.opcode = .IBV_WR_RDMA_READ ∨ w.wr.opcode = .IBV_WR_SEND → w.wr.Reported → wr.signaled) ∧
      v' = { v with
        physicalQps_ := v.physicalQps_.set i (q.postSend wr w.wr.wr_id)
        nextPhysicalWrId_ := v.nextPhysicalWrId_ + 1
        dqplbSeqTracker := tracker
        pendingSendVirtualWrQue_ := advanced w rest
          (u32 (min (i32 (u32 (g.length - w.offset))) v.maxMsgSize_))
        pendingSendNotifyVirtualWrQue_ := ns } := by
  cases hupd : v.updatePhysicalSendWrFromVirtualSendWr w with
  | error e =>
    simp only [postSegment, hupd, bind, Except.bind] at h
    cases h
  | ok r =>
    rcases updatePhysicalSendWr_of_ok hupd with ⟨g, tracker, hg, hv, hid, haddr, hsg, hstamp, hsig⟩
    simp only [postSegment, hupd, bind, Except.bind, hv, hsg] at h
    cases hq : v.physicalQps_[i]? with
    | none =>
      simp only [hq] at h
      cases h
    | some q =>
      simp only [hq] at h
      split at h
      · cases h
      · rw [Except.ok.injEq] at h
        rcases advance_queue (({ v with
            nextPhysicalWrId_ := v.nextPhysicalWrId_ + 1
            dqplbSeqTracker := tracker } : IbvVirtualQp).setQp (some i)
              (q.postSend r.1 w.wr.wr_id)) w rest
          (u32 (min (i32 (u32 (g.length - w.offset))) v.maxMsgSize_)) with ⟨ns, hadv⟩
        rw [hadv] at h
        exact ⟨q, r.1, g, tracker, ns, rfl, hg, hid, haddr, hsg, hstamp, hsig, h.symm⟩

/-! ### Calls that succeed -/

theorem postSend_of_ok {request : VirtualCqRequest} (h : v.postSend wr = .ok (request, v')) :
    ∃ g segments n extra, wr.sg_list = some g ∧ segmentCount g.length v.maxMsgSize_ = .ok segments ∧
      extra = decide (wr.opcode = .IBV_WR_RDMA_WRITE_WITH_IMM ∧ v.loadBalancingScheme_ = .SPRAY) ∧
      (n = if extra then segments + 1 else segments) ∧
      request = .SEND v'.virtualQpNum_ n wr extra ∧
      { v with pendingSendVirtualWrQue_ := v.pendingSendVirtualWrQue_ ++
        [VirtualSendWr.ofWr wr n extra] }.mapPendingSendQueToPhysicalQp none = .ok v' := by
  rw [postSend] at h
  split at h
  · cases h
  · split at h
    · cases h
    · cases hg : wr.sg_list with
      | none =>
        simp only [hg] at h
        cases h
      | some g =>
        simp only [hg, bind, Except.bind] at h
        cases hcount : segmentCount g.length v.maxMsgSize_ with
        | error e =>
          simp only [hcount] at h
          cases h
        | ok segments =>
          simp only [hcount] at h
          split at h
          · cases h
          · split at h
            · cases h
            · rename_i u hmap
              cases h
              exact ⟨g, segments, _, _, rfl, hcount, rfl, rfl, rfl, hmap⟩

theorem postRecv_of_ok {wr : IbvRecvWr} {request : VirtualCqRequest}
    (h : v.postRecv wr = .ok (request, v')) :
    ∃ x, v.loadBalancingScheme_ = .SPRAY ∧ { v with pendingRecvVirtualWrQue_ :=
        v.pendingRecvVirtualWrQue_ ++ [x] }.mapPendingRecvQueToPhysicalQp none = .ok v' ∨
      v.loadBalancingScheme_ = .DQPLB ∧ v' = if v.dqplbReceiverInitialized_ then { v with
          pendingRecvVirtualWrQue_ := v.pendingRecvVirtualWrQue_ ++ [x] }
        else initializeDqplbReceiver { v with
          pendingRecvVirtualWrQue_ := v.pendingRecvVirtualWrQue_ ++ [x] } := by
  rw [postRecv] at h
  split at h
  · cases h
  · cases hcount : v.recvSegmentCount wr with
    | error e =>
      simp only [hcount, bind, Except.bind] at h
      cases h
    | ok n =>
      simp only [hcount, bind, Except.bind] at h
      refine ⟨VirtualRecvWr.ofWr wr n, ?_⟩
      cases hscheme : v.loadBalancingScheme_ with
      | SPRAY =>
        simp only [hscheme] at h
        split at h
        · cases h
        · rename_i u hmap
          cases h
          exact Or.inl ⟨rfl, hmap⟩
      | DQPLB =>
        simp only [hscheme] at h
        cases h
        exact Or.inr ⟨rfl, rfl⟩

/-- The record at the front of a QP is the one that the request is about. -/
structure Matches (v : IbvVirtualQp) (request : VirtualQpRequest) (f : IbvQp → List PhysicalWrStatus)
    (k : Option ℕ) (q : IbvQp) (st : PhysicalWrStatus) (sts : List PhysicalWrStatus) : Prop where
  index : v.idxOfQpNum request.physicalQpNum = .ok k
  qp : v.qp? k = some q
  front : f q = st :: sts
  wrId : st.physicalWrId = request.wrId

variable {response : VirtualQpResponse} {request : VirtualQpRequest}

theorem processRequest_of_ok
    (h : v.processRequest request = .ok (response, v')) :
    ∃ k q, v.idxOfQpNum request.physicalQpNum = .ok k ∧ v.qp? k = some q ∧
      (match request.type with
        | .RECV => v.processRecv k q request
        | .SEND => v.processSend k q request
        | .SEND_NOTIFY => v.processSendNotify request) = .ok (response, v') := by
  cases hidx : v.idxOfQpNum request.physicalQpNum with
  | error e =>
    simp only [processRequest, hidx, bind, Except.bind] at h
    cases h
  | ok k =>
    simp only [processRequest, hidx, bind, Except.bind] at h
    cases hq : v.qp? k with
    | none =>
      simp only [hq] at h
      cases h
    | some q =>
      simp only [hq] at h
      exact ⟨k, q, rfl, hq, h⟩

theorem processSend_of_ok
    (htype : request.type = .SEND) (h : v.processRequest request = .ok (response, v')) :
    ∃ k q st sts, Matches v request IbvQp.physicalSendWrStatus_ k q st sts ∧
      (k = none ∧ v' = v.setQp none { q with physicalSendWrStatus_ := sts } ∨
        ∃ i, k = some i ∧ (v.setQp (some i) { q with
          physicalSendWrStatus_ := sts }).mapPendingSendQueToPhysicalQp (some i) = .ok v') := by
  rcases processRequest_of_ok h with ⟨k, q, hidx, hq, hsend⟩
  rw [htype] at hsend
  simp only [processSend] at hsend
  split at hsend
  · cases hsend
  · rename_i st sts hst
    split at hsend
    · cases hsend
    · rename_i hid
      refine ⟨k, q, st, sts, ⟨hidx, hq, hst, not_not.mp hid⟩, ?_⟩
      split at hsend
      · cases hsend
        exact Or.inl ⟨rfl, rfl⟩
      · rename_i i
        cases hmap : (v.setQp (some i) { q with
            physicalSendWrStatus_ := sts }).mapPendingSendQueToPhysicalQp (some i) with
        | error e =>
          simp only [hmap, bind, Except.bind] at hsend
          cases hsend
        | ok u =>
          simp only [hmap, bind, Except.bind] at hsend
          cases hsend
          exact Or.inr ⟨i, rfl, hmap⟩

theorem processRecv_of_ok
    (htype : request.type = .RECV) (h : v.processRequest request = .ok (response, v')) :
    ∃ k q st sts, Matches v request IbvQp.physicalRecvWrStatus_ k q st sts ∧
      (v.loadBalancingScheme_ = .SPRAY ∧ (k = none ∧
          v' = v.setQp none { q with physicalRecvWrStatus_ := sts } ∨
        ∃ i, k = some i ∧ (v.setQp (some i) { q with
          physicalRecvWrStatus_ := sts }).mapPendingRecvQueToPhysicalQp (some i) = .ok v') ∨
      v.loadBalancingScheme_ = .DQPLB ∧ ∃ u tracker, (v.setQp k { q with
        physicalRecvWrStatus_ := sts }).postRecvNotifyImm k = .ok u ∧
        v' = { u with dqplbSeqTracker := tracker }) := by
  rcases processRequest_of_ok h with ⟨k, q, hidx, hq, hrecv⟩
  have hscheme : ∀ q', (v.setQp k q').loadBalancingScheme_ = v.loadBalancingScheme_ := by
    intro q'
    cases k <;> rfl
  rw [htype] at hrecv
  simp only [processRecv, hscheme] at hrecv
  split at hrecv
  · cases hrecv
  · rename_i st sts hst
    split at hrecv
    · cases hrecv
    · rename_i hid
      refine ⟨k, q, st, sts, ⟨hidx, hq, hst, not_not.mp hid⟩, ?_⟩
      cases hcase : v.loadBalancingScheme_ with
      | SPRAY =>
        simp only [hcase] at hrecv
        refine Or.inl ⟨rfl, ?_⟩
        split at hrecv
        · cases hrecv
          exact Or.inl ⟨rfl, rfl⟩
        · rename_i i
          cases hmap : (v.setQp (some i) { q with
              physicalRecvWrStatus_ := sts }).mapPendingRecvQueToPhysicalQp (some i) with
          | error e =>
            simp only [hmap, bind, Except.bind] at hrecv
            cases hrecv
          | ok u =>
            simp only [hmap, bind, Except.bind] at hrecv
            cases hrecv
            exact Or.inr ⟨i, rfl, hmap⟩
      | DQPLB =>
        simp only [hcase] at hrecv
        cases hpost : (v.setQp k { q with physicalRecvWrStatus_ := sts }).postRecvNotifyImm k with
        | error e =>
          simp only [hpost, bind, Except.bind] at hrecv
          cases hrecv
        | ok u =>
          simp only [hpost, bind, Except.bind] at hrecv
          cases hrecv
          exact Or.inr ⟨rfl, u, _, rfl, rfl⟩

theorem processSendNotify_of_ok
    (htype : request.type = .SEND_NOTIFY) (h : v.processRequest request = .ok (response, v')) :
    v' = v ∨ v.postSendNotifyImm = .ok v' := by
  rcases processRequest_of_ok h with ⟨k, q, hidx, hq, hnotify⟩
  rw [htype] at hnotify
  simp only [processSendNotify] at hnotify
  split at hnotify
  · cases hnotify
  · split at hnotify
    · cases hpost : v.postSendNotifyImm with
      | error e =>
        simp only [hpost, bind, Except.bind] at hnotify
        cases hnotify
      | ok u =>
        simp only [hpost, bind, Except.bind] at hnotify
        cases hnotify
        exact Or.inr rfl
    · cases hnotify
      exact Or.inl rfl

end IbvVirtualQp
end TorchComms.Ibverbx
