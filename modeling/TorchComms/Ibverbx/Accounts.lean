import TorchComms.Ibverbx.Ledger
import TorchComms.Ibverbx.RecvSide

/-! # The accounts of an endpoint in SPRAY mode

Every virtual completion waits for as many parts as its work request has left. Sending and
receiving leave each other's parts alone, and a notification is the last part of its message.
-/
namespace TorchComms.Ibverbx

open Foundation

namespace IbvVirtualQp

variable {v v' v'' : IbvVirtualQp} {k : Option ℕ} {q q' : IbvQp} {id i : ℕ} {β : Type*}

/-! ### Frames -/

/-- What receiving uses has not changed. -/
structure RecvFrame (v v' : IbvVirtualQp) : Prop where
  parts : v'.qps.map IbvQp.recvPart = v.qps.map IbvQp.recvPart
  pending : v'.pendingRecvVirtualWrQue_ = v.pendingRecvVirtualWrQue_
  maxMsgSize : v'.maxMsgSize_ = v.maxMsgSize_
  scheme : v'.loadBalancingScheme_ = v.loadBalancingScheme_

variable {f : IbvQp → β}

theorem forall_of_map (h : v'.qps.map f = v.qps.map f) {P : β → Prop}
    (hP : ∀ q ∈ v.qps, P (f q)) : ∀ q ∈ v'.qps, P (f q) := by
  rw [← List.forall_mem_map] at hP ⊢
  rw [h]
  exact hP

theorem inFlight_of_map (g : β → List PhysicalWrStatus) (h : v'.qps.map f = v.qps.map f) (id : ℕ) :
    inFlight (fun q => g (f q)) v' id = inFlight (fun q => g (f q)) v id := by
  have hmap : ∀ u : IbvVirtualQp, inFlight (fun q => g (f q)) u id =
      ((u.qps.map f).map fun p => statusCount id (g p)).sum := by
    intro u
    rw [inFlight, List.map_map]
    rfl
  rw [hmap, hmap, h]

theorem length_of_map (h : v'.qps.map f = v.qps.map f) :
    v'.physicalQps_.length = v.physicalQps_.length := by
  have hlen := congrArg List.length h
  simpa [qps] using hlen

section

variable (h : SendFrame v v')
include h

theorem SendFrame.sending (hs : Sending v) (hwired : v'.Wired) : Sending v' where
  wired := hwired
  next := by
    rw [h.next, length_of_map h.parts]
    exact hs.next
  mirror := forall_of_map (P := fun p => p.1 = p.2.outstanding.map SendWqe.status) h.parts hs.mirror
  signaled := forall_of_map (P := fun p => ∀ w ∈ p.2.outstanding, w.wr.signaled) h.parts hs.signaled
  reported := by
    rw [h.pending]
    exact hs.reported
  pending := by
    rw [h.pending]
    exact hs.pending
  notifies := by
    rw [h.notifyQue]
    exact hs.notifies

theorem SendFrame.sendLeft (id : ℕ) : v'.sendLeft id = v.sendLeft id := by
  have hfly : inFlight IbvQp.physicalSendWrStatus_ v' id =
      inFlight IbvQp.physicalSendWrStatus_ v id := inFlight_of_map Prod.fst h.parts id
  simp only [IbvVirtualQp.sendLeft, h.pending, h.notifyQue, hfly]

theorem SendFrame.unnotified : v'.unnotified = v.unnotified := by
  simp only [IbvVirtualQp.unnotified, h.pending, h.notifyQue]

theorem SendFrame.notifyStatus :
    v'.notifyQp_.physicalSendWrStatus_ = v.notifyQp_.physicalSendWrStatus_ := by
  have hparts := h.parts
  simp only [qps, List.map_cons, List.cons.injEq] at hparts
  exact congrArg Prod.fst hparts.1

end

theorem MovedRecv.sendFrame (h : MovedRecv v v') : SendFrame v v' :=
  ⟨h.sendPart, h.sendQue, h.notifyQue, h.next⟩

theorem RecvFrame.trans (h : RecvFrame v v') (h' : RecvFrame v' v'') : RecvFrame v v'' where
  parts := h'.parts.trans h.parts
  pending := h'.pending.trans h.pending
  maxMsgSize := h'.maxMsgSize.trans h.maxMsgSize
  scheme := h'.scheme.trans h.scheme

theorem RecvFrame.receiving (h : RecvFrame v v') (hr : Receiving v) (hwired : v'.Wired) :
    Receiving v' where
  scheme := h.scheme.trans hr.scheme
  wired := hwired
  size := by
    rw [h.maxMsgSize]
    exact hr.size
  mirror := forall_of_map (P := fun p => p.1 = p.2.outstanding.map RecvWqe.status) h.parts hr.mirror
  pending := by
    rw [h.pending]
    exact hr.pending

theorem RecvFrame.recvLeft (h : RecvFrame v v') (id : ℕ) : v'.recvLeft id = v.recvLeft id := by
  have hfly : inFlight IbvQp.physicalRecvWrStatus_ v' id =
      inFlight IbvQp.physicalRecvWrStatus_ v id := inFlight_of_map Prod.fst h.parts id
  simp only [IbvVirtualQp.recvLeft, h.pending, hfly]

theorem Moved.recvFrame (h : Moved v v') : RecvFrame v v' :=
  ⟨h.recvPart, h.recvQue, h.maxMsgSize, h.scheme⟩

theorem recvFrame_setQp (hq : v.qp? k = some q) (hpart : q'.recvPart = q.recvPart) :
    RecvFrame v (v.setQp k q') := by
  refine ⟨map_setQp _ hq hpart, ?_, ?_, ?_⟩
  all_goals cases k <;> rfl

theorem Moved.index (h : Moved v v') (hwired : v.Wired) (hq : v.qp? k = some q) :
    v'.idxOfQpNum q.qp_num = .ok k ∧ ∃ q', v'.qp? k = some q' := by
  constructor
  · have hidx := hwired.index k q hq
    simpa only [idxOfQpNum, h.notifyQp, h.route] using hidx
  · cases k with
    | none => exact ⟨_, rfl⟩
    | some i =>
      have hlt : i < v'.physicalQps_.length := by
        rw [h.length]
        exact (List.getElem?_eq_some_iff.mp hq).1
      exact ⟨_, List.getElem?_eq_getElem hlt⟩

/-! ### Bounds on the parts left -/

section

variable (hs : Spreading v)
include hs

theorem Spreading.waiting_nonneg (id : ℕ) :
    0 ≤ waiting id v.pendingSendVirtualWrQue_ ∧ 0 ≤ waiting id v.pendingSendNotifyVirtualWrQue_ := by
  constructor
  · exact Ibverbx.waiting_nonneg fun w hw => (hs.pending w hw).left
  · apply Ibverbx.waiting_nonneg
    intro w hw
    rw [(hs.notifies w hw).left]
    exact Int.one_pos

theorem Spreading.inFlight_le (id : ℕ) :
    inFlight IbvQp.physicalSendWrStatus_ v id ≤ v.sendLeft id := by
  have hwait := hs.waiting_nonneg id
  simp only [IbvVirtualQp.sendLeft]
  omega

theorem Spreading.sendLeft_nonneg (id : ℕ) : 0 ≤ v.sendLeft id :=
  le_trans (inFlight_nonneg _ _ _) (hs.inFlight_le id)

theorem Spreading.statusCount_le (hq : q ∈ v.qps) (id : ℕ) :
    statusCount id q.physicalSendWrStatus_ ≤ v.sendLeft id :=
  le_trans (statusCount_le_inFlight IbvQp.physicalSendWrStatus_ hq id) (hs.inFlight_le id)

theorem Spreading.sendLeft_pos (hq : q ∈ v.qps) {x : SendWqe}
    (hx : x ∈ q.sq.outstanding) : 0 < v.sendLeft x.virtualWrId := by
  have hin : 0 < statusCount x.virtualWrId q.physicalSendWrStatus_ := by
    rw [statusCount_pos, hs.mirror q hq]
    exact ⟨x.status, List.mem_map_of_mem hx, rfl⟩
  exact Int.lt_of_lt_of_le hin (hs.statusCount_le hq _)

theorem Spreading.statusCount_add_le (hq : v.physicalQps_[i]? = some q) (id : ℕ) :
    statusCount id v.notifyQp_.physicalSendWrStatus_ + statusCount id q.physicalSendWrStatus_ ≤
      v.sendLeft id := by
  have hle : statusCount id q.physicalSendWrStatus_ ≤
      (v.physicalQps_.map fun q => statusCount id q.physicalSendWrStatus_).sum :=
    le_sum_map (f := fun q : IbvQp => statusCount id q.physicalSendWrStatus_)
      (fun _ _ => statusCount_nonneg _ _) (List.mem_of_getElem? hq)
  have hfly := hs.inFlight_le id
  simp only [inFlight, qps, List.map_cons, List.sum_cons] at hfly
  omega

theorem Spreading.unnotified_pos {wr : IbvSendWr} (hwr : wr ∈ v.unnotified) :
    0 < v.sendLeft wr.wr_id := by
  have hwait := hs.waiting_nonneg wr.wr_id
  have hfly := inFlight_nonneg IbvQp.physicalSendWrStatus_ v wr.wr_id
  rcases List.mem_append.mp hwr with hwr | hwr
  · rcases List.mem_map.mp hwr with ⟨w, hw, rfl⟩
    have hle := le_waiting (fun w hw => by
      rw [(hs.notifies w hw).left]
      exact Int.one_pos) hw
    rw [(hs.notifies w hw).left] at hle
    simp only [IbvVirtualQp.sendLeft]
    omega
  · rcases List.mem_map.mp hwr with ⟨w, hw, rfl⟩
    have hw := (List.mem_filter.mp hw).1
    have hle := le_waiting (fun w hw => (hs.pending w hw).left) hw
    have hpos := (hs.pending w hw).left
    simp only [IbvVirtualQp.sendLeft]
    omega

theorem Spreading.mem_notifyQue (hone : v.sendLeft id = 1)
    (hid : id ∈ v.unnotified.map IbvSendWr.wr_id) :
    ∃ w ∈ v.pendingSendNotifyVirtualWrQue_, w.wr.wr_id = id := by
  rcases List.mem_map.mp hid with ⟨wr, hwr, hwrid⟩
  rcases List.mem_append.mp hwr with hwr | hwr
  · rcases List.mem_map.mp hwr with ⟨w, hw, rfl⟩
    exact ⟨w, hw, hwrid⟩
  · rcases List.mem_map.mp hwr with ⟨w, hw, rfl⟩
    rcases List.mem_filter.mp hw with ⟨hw, hextra⟩
    have hgt := (hs.pending w hw).extra hextra
    have hle := le_waiting (fun w hw => (hs.pending w hw).left) hw
    have hwait := hs.waiting_nonneg id
    have hfly := inFlight_nonneg IbvQp.physicalSendWrStatus_ v id
    rw [hwrid] at hle
    simp only [IbvVirtualQp.sendLeft] at hone
    omega

end

theorem Receiving.recvLeft_nonneg (hr : Receiving v) (id : ℕ) : 0 ≤ v.recvLeft id := by
  have hwait : 0 ≤ waitingRecv id v.pendingRecvVirtualWrQue_ :=
    waitingRecv_nonneg fun w hw => (hr.pending w hw).left
  have hfly := inFlight_nonneg IbvQp.physicalRecvWrStatus_ v id
  simp only [IbvVirtualQp.recvLeft]
  omega

theorem Receiving.statusCount_le (hr : Receiving v) (hq : q ∈ v.qps) (id : ℕ) :
    statusCount id q.physicalRecvWrStatus_ ≤ v.recvLeft id := by
  have hwait : 0 ≤ waitingRecv id v.pendingRecvVirtualWrQue_ :=
    waitingRecv_nonneg fun w hw => (hr.pending w hw).left
  have hfly := statusCount_le_inFlight IbvQp.physicalRecvWrStatus_ hq id
  simp only [IbvVirtualQp.recvLeft]
  omega

end IbvVirtualQp

namespace Endpoint

variable {e : Endpoint} {v : IbvVirtualQp} {cq : IbvVirtualCq} {k : Option ℕ} {q : IbvQp} {id : ℕ}

/-- The parts of a send that the CQ `c` waits for. -/
def sentLeft (e : Endpoint) (c id : ℕ) : ℤ := if c = e.sendCq then e.vqp.sendLeft id else 0

/-- The parts of a receive that the CQ `c` waits for. -/
def receivedLeft (e : Endpoint) (c id : ℕ) : ℤ := if c = e.recvCq then e.vqp.recvLeft id else 0

structure Accounts (e : Endpoint) : Prop where
  sending : e.vqp.Sending
  receiving : e.vqp.Receiving
  ledger : ∀ c, Ledger (e.cqs c) (e.sentLeft c) (e.receivedLeft c)
  notified : ∀ id, 0 < statusCount id e.vqp.notifyQp_.physicalSendWrStatus_ →
    e.vqp.sendLeft id = 1
  extra : ∀ w ∈ (e.cqs e.sendCq).pendingSendVirtualWcQue_.items, w.sendExtraNotifyImm →
    0 < e.vqp.sendLeft w.wr_id → w.wr_id ∈ e.vqp.unnotified.map IbvSendWr.wr_id ∨
      0 < statusCount w.wr_id e.vqp.notifyQp_.physicalSendWrStatus_
  flagged : ∀ w ∈ (e.cqs e.sendCq).pendingSendVirtualWcQue_.items,
    w.wr_id ∈ e.vqp.unnotified.map IbvSendWr.wr_id → w.sendExtraNotifyImm

section

variable (h : Accounts e)
include h

theorem Accounts.sendLedger : Ledger (e.cqs e.sendCq) e.vqp.sendLeft (e.receivedLeft e.sendCq) :=
  (h.ledger e.sendCq).of_left (fun _ => (if_pos rfl).symm) fun _ => rfl

theorem Accounts.recvLedger : Ledger (e.cqs e.recvCq) (e.sentLeft e.recvCq) e.vqp.recvLeft :=
  (h.ledger e.recvCq).of_left (fun _ => rfl) fun _ => (if_pos rfl).symm

theorem Accounts.sentLeft_nonneg (c id : ℕ) : 0 ≤ e.sentLeft c id := by
  rw [sentLeft]
  split
  · exact h.sending.sendLeft_nonneg id
  · exact le_rfl

theorem Accounts.receivedLeft_nonneg (c id : ℕ) : 0 ≤ e.receivedLeft c id := by
  rw [receivedLeft]
  split
  · exact h.receiving.recvLeft_nonneg id
  · exact le_rfl

theorem Accounts.ledger_send (hf : e.vqp.RecvFrame v)
    (hcq : Ledger cq v.sendLeft (e.receivedLeft e.sendCq)) (c : ℕ) :
    Ledger (({ e with vqp := v }.updateCq e.sendCq cq).cqs c)
      (({ e with vqp := v }.updateCq e.sendCq cq).sentLeft c)
      (({ e with vqp := v }.updateCq e.sendCq cq).receivedLeft c) := by
  by_cases hc : c = e.sendCq
  · subst hc
    simp only [updateCq, Function.update_self]
    apply hcq.of_left
    · exact fun _ => if_pos rfl
    · intro id
      simp only [receivedLeft, hf.recvLeft]
  · simp only [updateCq, Function.update_of_ne hc]
    apply (h.ledger c).of_left
    · intro id
      simp only [sentLeft, if_neg hc]
    · intro id
      simp only [receivedLeft, hf.recvLeft]

theorem Accounts.ledger_recv (hf : e.vqp.SendFrame v)
    (hcq : Ledger cq (e.sentLeft e.recvCq) v.recvLeft) (c : ℕ) :
    Ledger (({ e with vqp := v }.updateCq e.recvCq cq).cqs c)
      (({ e with vqp := v }.updateCq e.recvCq cq).sentLeft c)
      (({ e with vqp := v }.updateCq e.recvCq cq).receivedLeft c) := by
  by_cases hc : c = e.recvCq
  · subst hc
    simp only [updateCq, Function.update_self]
    apply hcq.of_left
    · intro id
      simp only [sentLeft, hf.sendLeft]
    · exact fun _ => if_pos rfl
  · simp only [updateCq, Function.update_of_ne hc]
    apply (h.ledger c).of_left
    · intro id
      simp only [sentLeft, hf.sendLeft]
    · intro id
      simp only [receivedLeft, if_neg hc]

/-- Receiving leaves what the accounts say about sends. -/
theorem Accounts.of_sendFrame (hr : v.Receiving) (hf : e.vqp.SendFrame v)
    {c : ℕ} (hcq : ∀ c', Ledger (({ e with vqp := v }.updateCq c cq).cqs c')
      (({ e with vqp := v }.updateCq c cq).sentLeft c')
      (({ e with vqp := v }.updateCq c cq).receivedLeft c'))
    (hitems : ∀ w ∈ cq.pendingSendVirtualWcQue_.items,
      w ∈ (e.cqs c).pendingSendVirtualWcQue_.items) :
    Accounts ({ e with vqp := v }.updateCq c cq) := by
  have hold : ∀ w ∈ (({ e with vqp := v }.updateCq c cq).cqs
      e.sendCq).pendingSendVirtualWcQue_.items,
      w ∈ (e.cqs e.sendCq).pendingSendVirtualWcQue_.items := by
    intro w hw
    by_cases hc : e.sendCq = c
    · subst hc
      simp only [updateCq, Function.update_self] at hw
      exact hitems w hw
    · simpa only [updateCq, Function.update_of_ne hc] using hw
  exact
    { sending := hf.sending h.sending hr.wired
      receiving := hr
      ledger := hcq
      notified := by
        simp only [updateCq, hf.notifyStatus, hf.sendLeft]
        exact h.notified
      extra := by
        intro w hw
        simp only [updateCq, hf.notifyStatus, hf.sendLeft, hf.unnotified]
        exact h.extra w (hold w hw)
      flagged := by
        intro w hw
        simp only [updateCq, hf.unnotified]
        exact h.flagged w (hold w hw) }

/-! ### Posting -/

theorem Accounts.new_id
    (hid : id ∉ wrIds (e.cqs e.sendCq).pendingSendVirtualWcQue_) : e.vqp.sendLeft id = 0 :=
  h.sendLedger.send.known id hid

/-- A post adds the parts of the new message and the virtual completion that waits for them. -/
theorem Accounts.postSend {wr : IbvSendWr} (hwr : IbvVirtualQp.Sendable e.vqp.maxMsgSize_ wr)
    (hsend : wr.wr_id ∉ wrIds (e.cqs e.sendCq).pendingSendVirtualWcQue_)
    (hrecv : wr.wr_id ∉ wrIds (e.cqs e.sendCq).pendingRecvVirtualWcQue_) :
    ∃ (n : ℤ) (extra : Bool) (v : IbvVirtualQp) (cq : IbvVirtualCq),
      e.postSend wr = .ok ({ e with vqp := v }.updateCq e.sendCq cq) ∧
      Accounts ({ e with vqp := v }.updateCq e.sendCq cq) ∧
      (extra = true → 1 < n) ∧ (extra = true ↔ wr.opcode = .IBV_WR_RDMA_WRITE_WITH_IMM) ∧
      IbvVirtualQp.Moved { e.vqp with pendingSendVirtualWrQue_ :=
        e.vqp.pendingSendVirtualWrQue_ ++ [VirtualSendWr.ofWr wr n extra] } v ∧
      v.Stopped ∧ (∀ id, v.sendLeft id = e.vqp.sendLeft id + if wr.wr_id = id then n else 0) ∧
      v.unnotified = e.vqp.unnotified ++ (if extra then [wr] else []) ∧
      cq.pendingSendVirtualWcQue_ = (e.cqs e.sendCq).pendingSendVirtualWcQue_.push_back
        (.fresh wr.wr_id v.virtualQpNum_ n extra) ∧
      cq.pendingRecvVirtualWcQue_ = (e.cqs e.sendCq).pendingRecvVirtualWcQue_ := by
  rcases IbvVirtualQp.postSend_spec h.sending h.receiving.size hwr with
    ⟨n, extra, v, hpost, hn, _, hmany, hextra, hs, hmoved, hstop⟩
  rw [h.receiving.scheme, eq_self_iff_true, and_true] at hextra
  have hcopy := hwr.divisible.ofWr n extra
  have hleft : ∀ id, v.sendLeft id = e.vqp.sendLeft id + if wr.wr_id = id then n else 0 := by
    intro id
    rw [hmoved.left, IbvVirtualQp.sendLeft_push, share, hcopy]
    rfl
  have hunn : v.unnotified = e.vqp.unnotified ++ (if extra then [wr] else []) := by
    rw [hmoved.unnotified]
    have hflag : (VirtualSendWr.ofWr wr n extra).sendExtraNotifyImm = extra := rfl
    simp only [IbvVirtualQp.unnotified, List.filter_append, List.filter_cons, List.filter_nil, hflag,
      List.map_append, List.append_assoc]
    cases extra
    · rfl
    · simp [hcopy]
  have hzero := h.new_id hsend
  have hframe : e.vqp.RecvFrame v :=
    ⟨hmoved.recvPart, hmoved.recvQue, hmoved.maxMsgSize, hmoved.scheme⟩
  have hnotify : v.notifyQp_ = e.vqp.notifyQp_ := hmoved.notifyQp
  have hsig : wr.signaled ∨ wr.opcode = .IBV_WR_RDMA_WRITE_WITH_IMM := hwr.signaled.symm
  rcases h.sendLedger.pushSend hsig hsend hrecv v.virtualQpNum_ n extra hleft with
    ⟨hledger, hitems, hitems'⟩
  refine ⟨n, extra, v, _, ?_, ?_, hmany, hextra, hmoved, hstop, hleft, hunn, hitems, hitems'⟩
  · simp only [Endpoint.postSend, hpost, bind, Except.bind]
    rfl
  have hold : ∀ w ∈ ((e.cqs e.sendCq).processRequest
      (.SEND v.virtualQpNum_ n wr extra)).pendingSendVirtualWcQue_.items,
      w ∈ (e.cqs e.sendCq).pendingSendVirtualWcQue_.items ∧ w.wr_id ≠ wr.wr_id ∨
        w = .fresh wr.wr_id v.virtualQpNum_ n extra := by
    intro w hw
    rw [hitems] at hw
    rcases List.mem_append.mp hw with hw | hw
    · left
      refine ⟨hw, ?_⟩
      intro heq
      exact hsend (heq ▸ List.mem_map_of_mem hw)
    · exact Or.inr (List.mem_singleton.mp hw)
  exact
    { sending := hs
      receiving := hframe.receiving h.receiving hs.wired
      ledger := h.ledger_send hframe hledger
      notified := by
        intro id hid
        simp only [updateCq, hnotify] at hid
        have hone := h.notified id hid
        have hne : wr.wr_id ≠ id := by
          rintro rfl
          omega
        simp only [updateCq, hleft, if_neg hne]
        omega
      extra := by
        intro w hw hflag hpos
        simp only [updateCq, Function.update_self] at hw hpos ⊢
        rw [hunn, hnotify, List.map_append, List.mem_append]
        rcases hold w hw with ⟨hw, hne⟩ | rfl
        · rw [hleft, if_neg (Ne.symm hne), Int.add_zero] at hpos
          rcases h.extra w hw hflag hpos with hin | hin
          · exact Or.inl (Or.inl hin)
          · exact Or.inr hin
        · have hset : extra = true := hflag
          left
          right
          simp [hset, VirtualWc.fresh, VirtualWc.wr_id]
      flagged := by
        intro w hw hin
        simp only [updateCq, Function.update_self] at hw hin
        rw [hunn, List.map_append, List.mem_append] at hin
        rcases hold w hw with ⟨hw, hne⟩ | rfl
        · rcases hin with hin | hin
          · exact h.flagged w hw hin
          · cases extra <;> simp at hin
            exact absurd hin hne
        · rcases hin with hin | hin
          · rcases List.mem_map.mp hin with ⟨wr', hwr', hid⟩
            have hpos := h.sending.unnotified_pos hwr'
            rw [hid] at hpos
            exact absurd hzero (Int.ne_of_gt hpos)
          · cases extra
            · simp at hin
            · rfl }

theorem Accounts.postRecv {wr : IbvRecvWr} (hwr : IbvVirtualQp.Receivable e.vqp.maxMsgSize_ wr)
    (hrecv : wr.wr_id ∉ wrIds (e.cqs e.recvCq).pendingRecvVirtualWcQue_)
    (hsend : wr.wr_id ∉ wrIds (e.cqs e.recvCq).pendingSendVirtualWcQue_) :
    ∃ (n : ℤ) (v : IbvVirtualQp) (cq : IbvVirtualCq),
      e.postRecv wr = .ok ({ e with vqp := v }.updateCq e.recvCq cq) ∧
      Accounts ({ e with vqp := v }.updateCq e.recvCq cq) ∧
      cq.pendingSendVirtualWcQue_ = (e.cqs e.recvCq).pendingSendVirtualWcQue_ ∧
      cq.pendingRecvVirtualWcQue_ = (e.cqs e.recvCq).pendingRecvVirtualWcQue_.push_back
        (.fresh wr.wr_id e.vqp.virtualQpNum_ n false) := by
  rcases IbvVirtualQp.postRecv_spec h.receiving hwr with ⟨n, v, hpost, _, hn, hr, hmoved⟩
  have hid : (VirtualRecvWr.ofWr wr n).wr.wr_id = wr.wr_id := by
    simp only [VirtualRecvWr.ofWr]
    split <;> rfl
  have hleft : ∀ id, v.recvLeft id = e.vqp.recvLeft id + if wr.wr_id = id then n else 0 := by
    intro id
    rw [hmoved.left, IbvVirtualQp.recvLeft_push, hid]
    rfl
  have hframe : e.vqp.SendFrame v :=
    ⟨hmoved.sendPart, hmoved.sendQue, hmoved.notifyQue, hmoved.next⟩
  have hledger := h.recvLedger.pushRecv hrecv hsend e.vqp.virtualQpNum_ n hleft
  refine ⟨n, v, _, ?_, h.of_sendFrame hr hframe (h.ledger_recv hframe hledger) ?_, rfl, rfl⟩
  · simp only [Endpoint.postRecv, hpost, bind, Except.bind]
    rfl
  · exact fun w hw => hw

end

/-! ### Completing -/

/-- The notification is the last part of the message `id`, and the next to be posted. -/
def NotifyDue (v : IbvVirtualQp) (id : ℕ) : Prop :=
  v.sendLeft id = 1 ∧ ∃ w ws, v.pendingSendNotifyVirtualWrQue_ = w :: ws ∧ w.wr.wr_id = id

theorem sendCompletion_of_empty (hq : e.vqp.qp? k = some q)
    (hout : q.sq.outstanding = []) (wc : IbvWc) : e.sendCompletion k wc = .ok e := by
  simp only [sendCompletion, hq, IbvQp.completeSend, WorkQueue.completeNext_of_empty _ hout,
    Option.map_none]

theorem recvCompletion_of_empty (hq : e.vqp.qp? k = some q)
    (hout : q.rq.outstanding = []) (withImm : Bool) (wc : IbvWc) :
    e.recvCompletion k withImm wc = .ok e := by
  simp only [recvCompletion, hq, IbvQp.completeRecv, WorkQueue.completeNext_of_empty _ hout,
    Option.map_none]

variable {x : SendWqe} {xs : List SendWqe}

theorem sendCompletion_eq {q' : IbvQp} {w : VirtualWc} (hq : e.vqp.qp? k = some q)
    (hcomp : q.completeSend = some (x, q')) (wc : IbvWc)
    (hproc : (e.vqp.setQp k q').processRequest ⟨.SEND, x.wr.wr_id, q.qp_num, 0⟩ =
      .ok (⟨id, false, 0⟩, v)) (hcharge : (e.cqs e.sendCq).charge id { wc with
      wr_id := x.wr.wr_id, qp_num := q.qp_num, opcode := wcOpcode x.wr.opcode } = .ok (w, cq)) :
    e.sendCompletion k wc =
      if w.remainingMsgCnt = 1 ∧ w.sendExtraNotifyImm then
        (v.processRequest ⟨.SEND_NOTIFY, id, q.qp_num, 0⟩).map fun r =>
          { e with vqp := r.2 }.updateCq e.sendCq cq
      else .ok ({ e with vqp := v }.updateCq e.sendCq cq) := by
  simp only [sendCompletion, hq, hcomp, processSendWc, hproc, bind, Except.bind, hcharge, updateCq]
  split
  · cases v.processRequest ⟨.SEND_NOTIFY, id, q.qp_num, 0⟩ <;> rfl
  · rfl

variable {ws : List VirtualSendWr} {sq : WorkQueue SendWqe} {w : VirtualSendWr}

theorem processRequest_send_notify {n : ℕ} (hidx : v.idxOfQpNum n = .ok k) (hq : v.qp? k = some q)
    (hnot : v.pendingSendNotifyVirtualWrQue_ = w :: ws) :
    v.processRequest ⟨.SEND_NOTIFY, id, n, 0⟩ =
      if w.wr.wr_id = id then v.postSendNotifyImm.map fun v => ({}, v) else .ok ({}, v) := by
  simp only [IbvVirtualQp.processRequest, hidx, bind, Except.bind, hq,
    IbvVirtualQp.processSendNotify, hnot]
  split
  · cases v.postSendNotifyImm <;> rfl
  · rfl

section

variable (h : Accounts e)
include h

theorem Accounts.notify
    (hnot : e.vqp.pendingSendNotifyVirtualWrQue_ = w :: ws) (hone : e.vqp.sendLeft w.wr.wr_id = 1) :
    ∃ v, e.vqp.postSendNotifyImm = .ok v ∧ Accounts { e with vqp := v } := by
  rcases IbvVirtualQp.postSendNotifyImm_spec h.sending hnot with ⟨wr, v, hpost, hqp, _, _, _, _, hs,
    hleft, hunn, hqps, _, _, hrecvQue, _, hsize, hscheme⟩
  have hframe : e.vqp.RecvFrame v := by
    refine ⟨?_, hrecvQue, hsize, hscheme⟩
    simp only [IbvVirtualQp.qps, List.map_cons, hqps, hqp]
    rfl
  refine ⟨v, hpost, ?_⟩
  have hcount : ∀ id, statusCount id v.notifyQp_.physicalSendWrStatus_ =
      statusCount id e.vqp.notifyQp_.physicalSendWrStatus_ +
        if w.wr.wr_id = id then 1 else 0 := by
    intro id
    rw [hqp, statusCount_postSend]
  exact
    { sending := hs
      receiving := hframe.receiving h.receiving hs.wired
      ledger := by
        intro c
        apply (h.ledger c).of_left
        · intro id
          simp only [sentLeft, hleft]
        · intro id
          simp only [receivedLeft, hframe.recvLeft]
      notified := by
        intro id hid
        simp only [hcount, hleft] at hid ⊢
        by_cases hw : w.wr.wr_id = id
        · rw [← hw]
          exact hone
        · rw [if_neg hw, Int.add_zero] at hid
          exact h.notified id hid
      extra := by
        intro x hx hflag hpos
        simp only [hcount, hleft] at hpos ⊢
        have hcase := h.extra x hx hflag hpos
        rw [hunn, List.map_cons, List.mem_cons] at hcase
        have hnonneg := statusCount_nonneg x.wr_id e.vqp.notifyQp_.physicalSendWrStatus_
        rcases hcase with (hid | hin) | hin
        · right
          rw [if_pos hid.symm]
          omega
        · exact Or.inl hin
        · right
          split <;> omega
      flagged := by
        intro x hx hin
        apply h.flagged x hx
        rw [hunn, List.map_cons]
        exact List.mem_cons_of_mem _ hin }

theorem Accounts.notifyCount (hq : e.vqp.qp? k = some q) (hout : q.sq.outstanding = x :: xs)
    (hnotify : v.notifyQp_ = (e.vqp.setQp k
      (IbvVirtualQp.retireSend q sq (xs.map SendWqe.status))).notifyQp_) (id : ℕ) :
    statusCount id e.vqp.notifyQp_.physicalSendWrStatus_ =
      statusCount id v.notifyQp_.physicalSendWrStatus_ +
        if k = none ∧ x.virtualWrId = id then 1 else 0 := by
  have hmirror := h.sending.mirror q (IbvVirtualQp.mem_qps hq)
  rw [hout, List.map_cons] at hmirror
  cases k with
  | none =>
    have hqn : e.vqp.notifyQp_ = q := Option.some.inj hq
    rw [hqn, hmirror, statusCount_cons, hnotify]
    simp only [true_and]
    rfl
  | some i =>
    have heq : v.notifyQp_ = e.vqp.notifyQp_ := hnotify
    rw [heq]
    simp

/-- A data completion is that of a message whose notification has not been posted. -/
theorem Accounts.notifyCount_data {i : ℕ} (hq : e.vqp.qp? (some i) = some q)
    (hout : q.sq.outstanding = x :: xs) :
    statusCount x.virtualWrId e.vqp.notifyQp_.physicalSendWrStatus_ + 1 ≤
      e.vqp.sendLeft x.virtualWrId := by
  have hmirror := h.sending.mirror q (IbvVirtualQp.mem_qps hq)
  have hadd := h.sending.statusCount_add_le hq x.virtualWrId
  rw [hmirror, hout, List.map_cons, statusCount_cons,
    if_pos (show x.status.virtualWrId = x.virtualWrId from rfl)] at hadd
  have hnonneg := statusCount_nonneg x.virtualWrId (xs.map SendWqe.status)
  omega

theorem Accounts.completed_counts (hq : e.vqp.qp? k = some q)
    (hout : q.sq.outstanding = x :: xs) (hs : v.Sending)
    (hleft : ∀ id, v.sendLeft id = e.vqp.sendLeft id - if x.virtualWrId = id then 1 else 0)
    (hnotify : v.notifyQp_ = (e.vqp.setQp k
      (IbvVirtualQp.retireSend q sq (xs.map SendWqe.status))).notifyQp_) :
    (∀ id, 0 < statusCount id v.notifyQp_.physicalSendWrStatus_ →
      0 < statusCount id e.vqp.notifyQp_.physicalSendWrStatus_ ∧ x.virtualWrId ≠ id) ∧
    ∀ id, 0 < v.sendLeft id → 0 < statusCount id e.vqp.notifyQp_.physicalSendWrStatus_ →
      0 < statusCount id v.notifyQp_.physicalSendWrStatus_ := by
  constructor
  · intro id hid
    have hcount := h.notifyCount hq hout hnotify id
    have hold : 0 < statusCount id e.vqp.notifyQp_.physicalSendWrStatus_ := by
      split at hcount <;> omega
    refine ⟨hold, ?_⟩
    rintro rfl
    have hone := h.notified _ hold
    cases k with
    | none =>
      have hle := hs.statusCount_le (List.mem_cons_self : v.notifyQp_ ∈ v.qps) x.virtualWrId
      rw [hleft, if_pos rfl] at hle
      omega
    | some i =>
      have hdata := h.notifyCount_data hq hout
      omega
  · intro id hpos hid
    have hcount := h.notifyCount hq hout hnotify id
    have hone := h.notified id hid
    split at hcount
    · rename_i hx
      rw [hleft, if_pos hx.2] at hpos
      omega
    · omega

/-- A completion charged to its virtual send keeps the accounts. -/
theorem Accounts.of_completed {pwc : IbvWc}
    (hframe : e.vqp.RecvFrame v) (hs : v.Sending) (hunn : v.unnotified = e.vqp.unnotified)
    (hleft : ∀ id, v.sendLeft id = e.vqp.sendLeft id - if x.virtualWrId = id then 1 else 0)
    (hfewer : ∀ id, 0 < statusCount id v.notifyQp_.physicalSendWrStatus_ →
      0 < statusCount id e.vqp.notifyQp_.physicalSendWrStatus_ ∧ x.virtualWrId ≠ id)
    (hkept : ∀ id, 0 < v.sendLeft id → 0 < statusCount id e.vqp.notifyQp_.physicalSendWrStatus_ →
      0 < statusCount id v.notifyQp_.physicalSendWrStatus_)
    (hledger : Ledger cq v.sendLeft (e.receivedLeft e.sendCq))
    (hitems : cq.pendingSendVirtualWcQue_.items = (e.cqs e.sendCq).pendingSendVirtualWcQue_.items.map
      fun u => if u.wr_id = x.virtualWrId then u.charge pwc else u) :
    Accounts ({ e with vqp := v }.updateCq e.sendCq cq) := by
  have hold : ∀ w ∈ cq.pendingSendVirtualWcQue_.items,
      ∃ u ∈ (e.cqs e.sendCq).pendingSendVirtualWcQue_.items, u.wr_id = w.wr_id ∧
        u.sendExtraNotifyImm = w.sendExtraNotifyImm := by
    intro w hw
    rw [hitems] at hw
    rcases List.mem_map.mp hw with ⟨u, hu, rfl⟩
    refine ⟨u, hu, ?_⟩
    split <;> exact ⟨rfl, rfl⟩
  exact
    { sending := hs
      receiving := hframe.receiving h.receiving hs.wired
      ledger := h.ledger_send hframe hledger
      notified := by
        intro id hid
        rcases hfewer id hid with ⟨hid, hne⟩
        have hone := h.notified id hid
        simp only [updateCq, hleft, if_neg hne]
        omega
      extra := by
        intro w hw hflag hpos
        simp only [updateCq, Function.update_self] at hw hpos ⊢
        rcases hold w hw with ⟨u, hu, hid, hextra⟩
        have hpos' : 0 < e.vqp.sendLeft u.wr_id := by
          rw [hleft] at hpos
          rw [hid]
          split at hpos <;> omega
        rw [hunn]
        rcases h.extra u hu (hextra.trans hflag) hpos' with hin | hin
        · rw [hid] at hin
          exact Or.inl hin
        · rw [hid] at hin
          exact Or.inr (hkept w.wr_id hpos hin)
      flagged := by
        intro w hw hin
        simp only [updateCq, Function.update_self] at hw hin
        rcases hold w hw with ⟨u, hu, hid, hextra⟩
        rw [hunn, ← hid] at hin
        rw [← hextra]
        exact h.flagged u hu hin }

/-- A send completion is charged to the virtual send it is a part of; the notification is posted
when it is due. -/
theorem Accounts.sendCompletion (hq : e.vqp.qp? k = some q)
    (hout : q.sq.outstanding = x :: xs) (wc : IbvWc) :
    ∃ (sq : WorkQueue SendWqe) (v v' : IbvVirtualQp) (w : VirtualWc) (cq : IbvVirtualCq) (pwc : IbvWc),
      e.sendCompletion k wc = .ok ({ e with vqp := v' }.updateCq e.sendCq cq) ∧
      Accounts ({ e with vqp := v }.updateCq e.sendCq cq) ∧
      Accounts ({ e with vqp := v' }.updateCq e.sendCq cq) ∧
      sq.posted = q.sq.posted ∧
      IbvVirtualQp.Moved (e.vqp.setQp k (IbvVirtualQp.retireSend q sq (xs.map SendWqe.status))) v ∧
      (e.vqp.Stopped → v.Stopped) ∧
      (∀ id, v.sendLeft id = e.vqp.sendLeft id - if x.virtualWrId = id then 1 else 0) ∧
      (NotifyDue v x.virtualWrId → v.postSendNotifyImm = .ok v') ∧
      (¬ NotifyDue v x.virtualWrId → v' = v) ∧
      w ∈ (e.cqs e.sendCq).pendingSendVirtualWcQue_.items ∧ w.wr_id = x.virtualWrId ∧
      cq.pendingSendVirtualWcQue_.items = (e.cqs e.sendCq).pendingSendVirtualWcQue_.items.map
        (fun u => if u.wr_id = x.virtualWrId then u.charge pwc else u) ∧
      cq.pendingRecvVirtualWcQue_ = (e.cqs e.sendCq).pendingRecvVirtualWcQue_ ∧
      pwc.status = wc.status := by
  rcases IbvVirtualQp.completeSend_spec h.sending hq hout with
    ⟨sq, v, hcomp, hposted, hproc, hs, hmoved, hleft, hstop⟩
  have hmem := IbvVirtualQp.mem_qps hq
  have hmirror := h.sending.mirror q hmem
  rw [hout, List.map_cons] at hmirror
  have hin : 0 < statusCount x.virtualWrId q.physicalSendWrStatus_ := by
    rw [statusCount_pos, hmirror]
    exact ⟨x.status, List.mem_cons_self .., rfl⟩
  have hpos : 0 < e.vqp.sendLeft x.virtualWrId :=
    Int.lt_of_lt_of_le hin (h.sending.statusCount_le hmem _)
  rcases h.sendLedger.chargeSend (Int.ne_of_gt hpos) { wc with
    wr_id := x.wr.wr_id, qp_num := q.qp_num, opcode := wcOpcode x.wr.opcode } hleft with
    ⟨w, cq, hcharge, hledger, hw, hid, hitems, hitems'⟩
  have hunn : v.unnotified = e.vqp.unnotified := by
    rw [hmoved.unnotified]
    cases k <;> rfl
  have hkeep : e.vqp.RecvFrame (e.vqp.setQp k
      (IbvVirtualQp.retireSend q sq (xs.map SendWqe.status))) :=
    IbvVirtualQp.recvFrame_setQp hq rfl
  have hwired : (e.vqp.setQp k
      (IbvVirtualQp.retireSend q sq (xs.map SendWqe.status))).Wired := by
    apply h.sending.wired.of_eq
    · cases k <;> rfl
    · exact IbvVirtualQp.map_setQp _ hq rfl
  rcases hmoved.index hwired (by rw [IbvVirtualQp.qp?_setQp hq, if_pos rfl]) with
    ⟨hidx, q', hqp⟩
  change v.idxOfQpNum q.qp_num = _ at hidx
  have hcounts := h.completed_counts hq hout hs hleft hmoved.notifyQp
  have hacc : Accounts ({ e with vqp := v }.updateCq e.sendCq cq) :=
    h.of_completed (hkeep.trans hmoved.recvFrame) hs hunn hleft hcounts.1 hcounts.2 hledger hitems
  have hu : w.charge { wc with wr_id := x.wr.wr_id, qp_num := q.qp_num, opcode := wcOpcode x.wr.opcode } ∈
      cq.pendingSendVirtualWcQue_.items := by
    rw [hitems]
    exact List.mem_map.mpr ⟨w, hw, if_pos hid⟩
  have hremaining := hledger.send.exact _ hu
  rw [VirtualWc.charge_wr_id, hid] at hremaining
  have heq := sendCompletion_eq hq hcomp wc hproc hcharge
  rw [hremaining, VirtualWc.charge_sendExtraNotifyImm] at heq
  have hnew : w.charge { wc with
      wr_id := x.wr.wr_id, qp_num := q.qp_num, opcode := wcOpcode x.wr.opcode } ∈
      (({ e with vqp := v }.updateCq e.sendCq cq).cqs e.sendCq).pendingSendVirtualWcQue_.items := by
    simpa only [updateCq, Function.update_self] using hu
  by_cases hdue : NotifyDue v x.virtualWrId
  · rcases hdue with ⟨hone, w', ws, hfront, hid'⟩
    rcases hacc.notify hfront (by rw [hid']; exact hone) with ⟨v', hpost, hacc'⟩
    change v.postSendNotifyImm = .ok v' at hpost
    have hflag : w.sendExtraNotifyImm := by
      apply hacc.flagged _ hnew
      change w.wr_id ∈ v.unnotified.map IbvSendWr.wr_id
      rw [hid, ← hid', IbvVirtualQp.unnotified, hfront]
      simp
    refine ⟨sq, v, v', w, cq, _, ?_, hacc, hacc', hposted, hmoved, hstop, hleft, fun _ => hpost,
      fun hnot => absurd ⟨hone, w', ws, hfront, hid'⟩ hnot, hw, hid, hitems, hitems', rfl⟩
    rw [heq, if_pos ⟨hone, hflag⟩, processRequest_send_notify hidx hqp hfront, if_pos hid', hpost]
    rfl
  · refine ⟨sq, v, v, w, cq, _, ?_, hacc, hacc, hposted, hmoved, hstop, hleft,
      fun hdue' => absurd hdue' hdue, fun _ => rfl, hw, hid, hitems, hitems', rfl⟩
    by_cases hlast : v.sendLeft x.virtualWrId = 1 ∧ w.sendExtraNotifyImm
    · have hextra := hacc.extra _ hnew hlast.2
      simp only [updateCq, VirtualWc.charge_wr_id, hid] at hextra
      rcases hextra (by omega) with hin | hin
      · rcases hs.mem_notifyQue hlast.1 hin with ⟨y, hy, _⟩
        rcases List.exists_cons_of_ne_nil (List.ne_nil_of_mem hy) with ⟨w', ws, hfront⟩
        have hother : w'.wr.wr_id ≠ x.virtualWrId := fun hid' =>
          hdue ⟨hlast.1, w', ws, hfront, hid'⟩
        rw [heq, if_pos hlast, processRequest_send_notify hidx hqp hfront, if_neg hother]
        rfl
      · exact absurd rfl (hcounts.1 _ hin).2
    · rw [heq, if_neg hlast]

end

theorem recvCompletion_eq {q' : IbvQp} {x : RecvWqe} {w : VirtualWc} {withImm : Bool}
    {wc pwc : IbvWc} (hq : e.vqp.qp? k = some q) (hcomp : q.completeRecv = some (x, q'))
    (hpwc : pwc = { wc with
      wr_id := x.wr.wr_id
      qp_num := q.qp_num
      opcode := if withImm then .IBV_WC_RECV_RDMA_WITH_IMM else .IBV_WC_RECV })
    (hproc : (e.vqp.setQp k q').processRequest ⟨.RECV, x.wr.wr_id, q.qp_num,
      if pwc.opcode = .IBV_WC_RECV_RDMA_WITH_IMM then pwc.imm_data else 0⟩ =
        .ok (⟨id, false, 0⟩, v))
    (hcharge : (e.cqs e.recvCq).charge id pwc = .ok (w, cq)) :
    e.recvCompletion k withImm wc = .ok ({ e with vqp := v }.updateCq e.recvCq cq) := by
  subst hpwc
  simp only [recvCompletion, hq, hcomp, processRecvWc, hproc, bind, Except.bind, hcharge,
    Bool.false_eq_true, if_false]

/-- A receive completion is charged to the virtual receive it is a part of. -/
theorem Accounts.recvCompletion (h : Accounts e) (hq : e.vqp.qp? k = some q) {x : RecvWqe}
    {xs : List RecvWqe} (hout : q.rq.outstanding = x :: xs) (withImm : Bool) (wc : IbvWc) :
    ∃ (v : IbvVirtualQp) (w : VirtualWc) (cq : IbvVirtualCq) (pwc : IbvWc),
      e.recvCompletion k withImm wc = .ok ({ e with vqp := v }.updateCq e.recvCq cq) ∧
      Accounts ({ e with vqp := v }.updateCq e.recvCq cq) ∧
      w ∈ (e.cqs e.recvCq).pendingRecvVirtualWcQue_.items ∧ w.wr_id = x.virtualWrId ∧
      cq.pendingRecvVirtualWcQue_.items = (e.cqs e.recvCq).pendingRecvVirtualWcQue_.items.map
        (fun u => if u.wr_id = x.virtualWrId then u.charge pwc else u) ∧
      cq.pendingSendVirtualWcQue_ = (e.cqs e.recvCq).pendingSendVirtualWcQue_ ∧
      pwc.status = wc.status := by
  generalize hpwc : ({ wc with
    wr_id := x.wr.wr_id
    qp_num := q.qp_num
    opcode := if withImm then .IBV_WC_RECV_RDMA_WITH_IMM else .IBV_WC_RECV } : IbvWc) = pwc
  rcases IbvVirtualQp.completeRecv_spec h.receiving hq hout
    (if pwc.opcode = .IBV_WC_RECV_RDMA_WITH_IMM then pwc.imm_data else 0) with
    ⟨rq, v, hcomp, _, _, hproc, hr, hmoved, hleft⟩
  have hkeep : e.vqp.SendFrame (e.vqp.setQp k
      (IbvVirtualQp.retireRecv q rq (xs.map RecvWqe.status))) :=
    IbvVirtualQp.sendFrame_setQp hq rfl
  have hframe := hkeep.trans hmoved.sendFrame
  have hmem := IbvVirtualQp.mem_qps hq
  have hmirror := h.receiving.mirror q hmem
  rw [hout, List.map_cons] at hmirror
  have hin : 0 < statusCount x.virtualWrId q.physicalRecvWrStatus_ := by
    rw [statusCount_pos, hmirror]
    exact ⟨x.status, List.mem_cons_self .., rfl⟩
  have hpos : 0 < e.vqp.recvLeft x.virtualWrId :=
    Int.lt_of_lt_of_le hin (h.receiving.statusCount_le hmem _)
  rcases h.recvLedger.chargeRecv (Int.ne_of_gt hpos) pwc hleft with
    ⟨w, cq, hcharge, hledger, hw, hid, hitems, hitems'⟩
  refine ⟨v, w, cq, pwc, recvCompletion_eq hq hcomp hpwc.symm hproc hcharge,
    h.of_sendFrame hr hframe (h.ledger_recv hframe hledger) ?_, hw, hid, hitems, hitems', ?_⟩
  · rw [hitems']
    exact fun w hw => hw
  · rw [← hpwc]

/-! ### Polling -/

theorem Accounts.pollVirtualCq (h : Accounts e) (c numEntries : ℕ) :
    ∃ wcs cq ps pr, e.pollVirtualCq c numEntries = .ok (wcs, e.updateCq c cq) ∧
      Accounts (e.updateCq c cq) ∧
      Ledger.Polled (e.sentLeft c) (e.receivedLeft c) (e.cqs c) ps pr { cq := cq, wcs := wcs } := by
  rcases (h.ledger c).poll (h.sentLeft_nonneg c) (h.receivedLeft_nonneg c) numEntries with
    ⟨wcs, cq, ps, pr, hpoll, hpolled, _⟩
  have hsame : e.vqp.SendFrame e.vqp := ⟨rfl, rfl, rfl, rfl⟩
  refine ⟨wcs, cq, ps, pr, ?_, h.of_sendFrame h.receiving hsame ?_ ?_, hpolled⟩
  · simp only [Endpoint.pollVirtualCq, hpoll, bind, Except.bind]
  · intro c'
    by_cases hc : c' = c
    · subst hc
      simp only [updateCq, Function.update_self]
      exact hpolled.ledger
    · simp only [updateCq, Function.update_of_ne hc]
      exact h.ledger c'
  · intro w hw
    have hsends := hpolled.sends
    rw [hsends]
    exact List.mem_append_right _ hw

/-! ### Creation -/

theorem accounts_create {qpNums : List ℕ} {notifyQpNum : ℕ} (hne : qpNums ≠ [])
    (hnodup : (notifyQpNum :: qpNums).Nodup) (maxMsgCntPerQp : ℤ) {maxMsgSize : ℤ}
    (hmax : 1 ≤ maxMsgSize) (sendCq recvCq : ℕ) :
    Accounts (create qpNums notifyQpNum maxMsgCntPerQp maxMsgSize .SPRAY sendCq recvCq) := by
  exact
    { sending := IbvVirtualQp.sending_create hne hnodup maxMsgCntPerQp maxMsgSize .SPRAY
      receiving := IbvVirtualQp.receiving_create hne hnodup maxMsgCntPerQp hmax
      ledger := by
        intro c
        apply Ledger.empty.of_left
        · intro id
          rw [sentLeft]
          split
          · exact IbvVirtualQp.sendLeft_create ..
          · rfl
        · intro id
          rw [receivedLeft]
          split
          · exact IbvVirtualQp.recvLeft_create ..
          · rfl
      notified := by
        intro id hid
        exact absurd hid (Int.lt_irrefl 0)
      extra := by simp [create]
      flagged := by simp [create] }

end Endpoint
end TorchComms.Ibverbx
