import TorchComms.Ibverbx.Accounts

/-! # Completions are charged to the right work request

In SPRAY mode a virtual CQ that both directions of a virtual QP use finds a virtual completion
by its work request id, whatever the direction. The charges are right as long as no send and
receive in flight on one CQ share an id, and not otherwise.
-/
namespace TorchComms.Ibverbx

open Foundation

namespace IbvVirtualQp

variable {v : IbvVirtualQp} {id : ℕ}

/-- No part of the send `id` waits or is in flight. -/
structure SendDone (v : IbvVirtualQp) (id : ℕ) : Prop where
  pending : ∀ w ∈ v.pendingSendVirtualWrQue_, w.wr.wr_id ≠ id
  notify : ∀ w ∈ v.pendingSendNotifyVirtualWrQue_, w.wr.wr_id ≠ id
  flying : ∀ q ∈ v.qps, ∀ x ∈ q.sq.outstanding, x.virtualWrId ≠ id

structure RecvDone (v : IbvVirtualQp) (id : ℕ) : Prop where
  pending : ∀ w ∈ v.pendingRecvVirtualWrQue_, w.wr.wr_id ≠ id
  flying : ∀ q ∈ v.qps, ∀ x ∈ q.rq.outstanding, x.virtualWrId ≠ id

theorem Spreading.sendDone (hs : Spreading v) (hzero : v.sendLeft id = 0) : SendDone v id := by
  have hwait := hs.waiting_nonneg id
  have hfly := inFlight_nonneg IbvQp.physicalSendWrStatus_ v id
  have hsum : waiting id v.pendingSendVirtualWrQue_ + waiting id v.pendingSendNotifyVirtualWrQue_ +
      inFlight IbvQp.physicalSendWrStatus_ v id = 0 := hzero
  refine ⟨?_, ?_, ?_⟩
  · rintro w hw rfl
    have hle := le_waiting (fun w hw => (hs.pending w hw).left) hw
    have hpos := (hs.pending w hw).left
    omega
  · rintro w hw rfl
    have hle := le_waiting (fun w hw => by
      rw [(hs.notifies w hw).left]
      exact Int.one_pos) hw
    have hone := (hs.notifies w hw).left
    omega
  · rintro q hq x hx rfl
    have hpos : 0 < statusCount x.virtualWrId q.physicalSendWrStatus_ := by
      rw [statusCount_pos, hs.mirror q hq]
      exact ⟨x.status, List.mem_map_of_mem hx, rfl⟩
    have hle := statusCount_le_inFlight IbvQp.physicalSendWrStatus_ hq x.virtualWrId
    omega

theorem Receiving.recvDone (hr : Receiving v) (hzero : v.recvLeft id = 0) : RecvDone v id := by
  have hpos : ∀ w ∈ v.pendingRecvVirtualWrQue_, 0 < w.remainingMsgCnt :=
    fun w hw => (hr.pending w hw).left
  have hwait : 0 ≤ waitingRecv id v.pendingRecvVirtualWrQue_ := waitingRecv_nonneg hpos
  have hfly := inFlight_nonneg IbvQp.physicalRecvWrStatus_ v id
  have hsum : waitingRecv id v.pendingRecvVirtualWrQue_ +
      inFlight IbvQp.physicalRecvWrStatus_ v id = 0 := hzero
  refine ⟨?_, ?_⟩
  · rintro w hw rfl
    have hle := le_waitingRecv hpos hw
    have hleft := hpos w hw
    omega
  · rintro q hq x hx rfl
    have hpos : 0 < statusCount x.virtualWrId q.physicalRecvWrStatus_ := by
      rw [statusCount_pos, hr.mirror q hq]
      exact ⟨x.status, List.mem_map_of_mem hx, rfl⟩
    have hle := statusCount_le_inFlight IbvQp.physicalRecvWrStatus_ hq x.virtualWrId
    omega

end IbvVirtualQp

namespace Endpoint

variable {e : Endpoint}

/-! ### What may be asked, and what is promised -/

/-- Requests the code can cut, with an id that no request in flight of their direction has. -/
def WellFormed (_ : List Op) (e : Endpoint) : Op → Prop
  | .postSend wr => IbvVirtualQp.Sendable e.vqp.maxMsgSize_ wr ∧
      wr.wr_id ∉ wrIds (e.cqs e.sendCq).pendingSendVirtualWcQue_
  | .postRecv wr => IbvVirtualQp.Receivable e.vqp.maxMsgSize_ wr ∧
      wr.wr_id ∉ wrIds (e.cqs e.recvCq).pendingRecvVirtualWcQue_
  | .sendCompletion qpIdx _ | .recvCompletion qpIdx _ _ => (e.vqp.qp? qpIdx).isSome
  | .pollVirtualCq _ _ => True

instance (past : List Op) (e : Endpoint) (op : Op) : Decidable (WellFormed past e op) := by
  cases op <;> unfold WellFormed <;> infer_instance

/-- Moreover, no request in flight of the other direction on the same CQ has the id. -/
def Apart (past : List Op) (e : Endpoint) (op : Op) : Prop :=
  WellFormed past e op ∧
    match op with
    | .postSend wr => wr.wr_id ∉ wrIds (e.cqs e.sendCq).pendingRecvVirtualWcQue_
    | .postRecv wr => wr.wr_id ∉ wrIds (e.cqs e.recvCq).pendingSendVirtualWcQue_
    | _ => True

instance (past : List Op) (e : Endpoint) (op : Op) : Decidable (Apart past e op) := by
  cases op <;> unfold Apart <;> infer_instance

/-- The one virtual completion of the work request `id` is charged. -/
def ChargedOnce (id : ℕ) (que que' : List VirtualWc) : Prop :=
  ∃ l w r physicalWc, que = l ++ w :: r ∧ que' = l ++ w.charge physicalWc :: r ∧ w.wr_id = id ∧
    ∀ u ∈ l ++ r, u.wr_id ≠ id

/-- What the operation does to the virtual completions: a physical completion is charged to the
request whose part it completes, and only requests without parts left are reported. -/
def Charges (e : Endpoint) (op : Op) (e' : Endpoint) : Prop :=
  match op with
  | .postSend _ | .postRecv _ => True
  | .sendCompletion qpIdx _ => ∀ q x xs, e.vqp.qp? qpIdx = some q → q.sq.outstanding = x :: xs →
      ChargedOnce x.virtualWrId (e.cqs e.sendCq).pendingSendVirtualWcQue_.items
        (e'.cqs e.sendCq).pendingSendVirtualWcQue_.items ∧
      (e'.cqs e.sendCq).pendingRecvVirtualWcQue_ = (e.cqs e.sendCq).pendingRecvVirtualWcQue_ ∧
      ∀ c, c ≠ e.sendCq → e'.cqs c = e.cqs c
  | .recvCompletion qpIdx _ _ => ∀ q x xs, e.vqp.qp? qpIdx = some q →
      q.rq.outstanding = x :: xs →
      ChargedOnce x.virtualWrId (e.cqs e.recvCq).pendingRecvVirtualWcQue_.items
        (e'.cqs e.recvCq).pendingRecvVirtualWcQue_.items ∧
      (e'.cqs e.recvCq).pendingSendVirtualWcQue_ = (e.cqs e.recvCq).pendingSendVirtualWcQue_ ∧
      ∀ c, c ≠ e.recvCq → e'.cqs c = e.cqs c
  | .pollVirtualCq c numEntries => ∃ wcs ps pr, e.pollVirtualCq c numEntries = .ok (wcs, e') ∧
      (e.cqs c).pendingSendVirtualWcQue_.items =
        ps ++ (e'.cqs c).pendingSendVirtualWcQue_.items ∧
      (e.cqs c).pendingRecvVirtualWcQue_.items =
        pr ++ (e'.cqs c).pendingRecvVirtualWcQue_.items ∧
      wcs.Perm ((ps ++ pr).map VirtualWc.wc) ∧ (∀ w ∈ ps, e.vqp.SendDone w.wr_id) ∧
      ∀ w ∈ pr, e.vqp.RecvDone w.wr_id

/-- No counter is negative. -/
def Counted (e : Endpoint) : Prop :=
  ∀ c, ∀ w ∈ (e.cqs c).pendingSendVirtualWcQue_.items ++ (e.cqs c).pendingRecvVirtualWcQue_.items,
    0 ≤ w.remainingMsgCnt

/-! ### One step -/

/-- Virtual completions are only on the CQ of their direction. -/
structure Homed (e : Endpoint) : Prop where
  sends : ∀ c, c ≠ e.sendCq → (e.cqs c).pendingSendVirtualWcQue_.items = []
  recvs : ∀ c, c ≠ e.recvCq → (e.cqs c).pendingRecvVirtualWcQue_.items = []

theorem Homed.updateCq (h : Homed e) (v : IbvVirtualQp) (c : ℕ) (cq : IbvVirtualCq)
    (hsend : c ≠ e.sendCq → cq.pendingSendVirtualWcQue_.items = [])
    (hrecv : c ≠ e.recvCq → cq.pendingRecvVirtualWcQue_.items = []) :
    Homed ({ e with vqp := v }.updateCq c cq) := by
  constructor
  · intro c' hc'
    by_cases hc : c' = c
    · subst hc
      simp only [Endpoint.updateCq, Function.update_self]
      exact hsend hc'
    · simp only [Endpoint.updateCq, Function.update_of_ne hc]
      exact h.sends c' hc'
  · intro c' hc'
    by_cases hc : c' = c
    · subst hc
      simp only [Endpoint.updateCq, Function.update_self]
      exact hrecv hc'
    · simp only [Endpoint.updateCq, Function.update_of_ne hc]
      exact h.recvs c' hc'

variable {que que' : List VirtualWc} {k : Option ℕ}

theorem chargedOnce_of_map {w : VirtualWc} {id : ℕ} {physicalWc : IbvWc}
    (hnodup : (que.map VirtualWc.wr_id).Nodup) (hw : w ∈ que) (hid : w.wr_id = id)
    (hmap : que' = que.map fun u => if u.wr_id = id then u.charge physicalWc else u) :
    ChargedOnce id que que' := by
  rcases List.append_of_mem hw with ⟨l, r, rfl⟩
  rw [List.map_append, List.map_cons, hid, List.nodup_middle, List.nodup_cons, ← List.map_append]
    at hnodup
  have hother : ∀ u ∈ l ++ r, u.wr_id ≠ id := by
    rintro u hu rfl
    exact hnodup.1 (List.mem_map_of_mem hu)
  have hkeep : ∀ us : List VirtualWc, (∀ u ∈ us, u ∈ l ++ r) →
      (us.map fun u => if u.wr_id = id then u.charge physicalWc else u) = us := by
    intro us hus
    rw [List.map_congr_left fun u hu => if_neg (hother u (hus u hu))]
    exact List.map_id' us
  refine ⟨l, w, r, physicalWc, rfl, ?_, hid, hother⟩
  rw [hmap, List.map_append, List.map_cons, if_pos hid, hkeep l fun u hu => List.mem_append_left _ hu,
    hkeep r fun u hu => List.mem_append_right _ hu]

section

variable (h : Accounts e)
include h

theorem Accounts.counted : Counted e := by
  intro c w hw
  rcases List.mem_append.mp hw with hw | hw
  · rw [(h.ledger c).send.exact w hw]
    exact h.sentLeft_nonneg c _
  · rw [(h.ledger c).recv.exact w hw]
    exact h.receivedLeft_nonneg c _

theorem Accounts.step_sendCompletion (hh : Homed e) (hk : (e.vqp.qp? k).isSome) (wc : IbvWc) :
    ∃ e', e.sendCompletion k wc = .ok e' ∧ (Accounts e' ∧ Homed e') ∧
      Charges e (.sendCompletion k wc) e' := by
  rcases Option.isSome_iff_exists.mp hk with ⟨q, hq⟩
  cases hout : q.sq.outstanding with
  | nil =>
    refine ⟨e, sendCompletion_of_empty hq hout wc, ⟨h, hh⟩, ?_⟩
    intro q' x xs hq' hout'
    rw [hq, Option.some.injEq] at hq'
    rw [← hq', hout] at hout'
    cases hout'
  | cons x xs =>
    rcases h.sendCompletion hq hout wc with
      ⟨_, _, v, w, cq, pwc, hok, _, hacc, _, _, _, _, _, _, hw, hid, hitems, hitems', _⟩
    refine ⟨_, hok, ⟨hacc, hh.updateCq v e.sendCq cq (fun hne => absurd rfl hne) ?_⟩, ?_⟩
    · rw [hitems']
      exact hh.recvs e.sendCq
    · intro q' x' xs' hq' hout'
      rw [hq, Option.some.injEq] at hq'
      rw [← hq', hout, List.cons.injEq] at hout'
      rw [← hout'.1]
      refine ⟨?_, ?_, ?_⟩
      · simp only [updateCq, Function.update_self]
        exact chargedOnce_of_map h.sendLedger.send.nodup hw hid hitems
      · simpa only [updateCq, Function.update_self] using hitems'
      · intro c hc
        simp only [updateCq, Function.update_of_ne hc]

theorem Accounts.step_recvCompletion (hh : Homed e)
    (hk : (e.vqp.qp? k).isSome) (withImm : Bool) (wc : IbvWc) :
    ∃ e', e.recvCompletion k withImm wc = .ok e' ∧ (Accounts e' ∧ Homed e') ∧
      Charges e (.recvCompletion k withImm wc) e' := by
  rcases Option.isSome_iff_exists.mp hk with ⟨q, hq⟩
  cases hout : q.rq.outstanding with
  | nil =>
    refine ⟨e, recvCompletion_of_empty hq hout withImm wc, ⟨h, hh⟩, ?_⟩
    intro q' x xs hq' hout'
    rw [hq, Option.some.injEq] at hq'
    rw [← hq', hout] at hout'
    cases hout'
  | cons x xs =>
    rcases h.recvCompletion hq hout withImm wc with
      ⟨v, w, cq, pwc, hok, hacc, hw, hid, hitems, hitems', _⟩
    refine ⟨_, hok, ⟨hacc, hh.updateCq v e.recvCq cq ?_ fun hne => absurd rfl hne⟩, ?_⟩
    · rw [hitems']
      exact hh.sends e.recvCq
    · intro q' x' xs' hq' hout'
      rw [hq, Option.some.injEq] at hq'
      rw [← hq', hout, List.cons.injEq] at hout'
      rw [← hout'.1]
      refine ⟨?_, ?_, ?_⟩
      · simp only [updateCq, Function.update_self]
        exact chargedOnce_of_map h.recvLedger.recv.nodup hw hid hitems
      · simpa only [updateCq, Function.update_self] using hitems'
      · intro c hc
        simp only [updateCq, Function.update_of_ne hc]

theorem Accounts.step_pollVirtualCq (hh : Homed e) (c numEntries : ℕ) :
    ∃ e', e.step (.pollVirtualCq c numEntries) = .ok e' ∧ (Accounts e' ∧ Homed e') ∧
      Charges e (.pollVirtualCq c numEntries) e' := by
  rcases h.pollVirtualCq c numEntries with ⟨wcs, cq, ps, pr, hpoll, hacc, hpolled⟩
  have hsends := hpolled.sends
  have hrecvs := hpolled.recvs
  refine ⟨e.updateCq c cq, ?_, ⟨hacc, hh.updateCq e.vqp c cq ?_ ?_⟩, wcs, ps, pr, hpoll, ?_, ?_,
    hpolled.wcs, ?_, ?_⟩
  · simp only [step, hpoll, Except.map]
  · intro hc
    rw [hh.sends c hc] at hsends
    exact (List.append_eq_nil_iff.mp hsends.symm).2
  · intro hc
    rw [hh.recvs c hc] at hrecvs
    exact (List.append_eq_nil_iff.mp hrecvs.symm).2
  · simpa only [updateCq, Function.update_self] using hsends
  · simpa only [updateCq, Function.update_self] using hrecvs
  · intro w hw
    by_cases hc : c = e.sendCq
    · have hzero := hpolled.sendsDone w hw
      rw [sentLeft, if_pos hc] at hzero
      exact h.sending.sendDone hzero
    · rw [hh.sends c hc] at hsends
      rw [(List.append_eq_nil_iff.mp hsends.symm).1] at hw
      cases hw
  · intro w hw
    by_cases hc : c = e.recvCq
    · have hzero := hpolled.recvsDone w hw
      rw [receivedLeft, if_pos hc] at hzero
      exact h.receiving.recvDone hzero
    · rw [hh.recvs c hc] at hrecvs
      rw [(List.append_eq_nil_iff.mp hrecvs.symm).1] at hw
      cases hw

theorem Accounts.step (hh : Homed e) {past : List Op} {op : Op} (hop : Apart past e op) :
    ∃ e', e.step op = .ok e' ∧ (Accounts e' ∧ Homed e') ∧ Charges e op e' := by
  cases op with
  | postSend wr =>
    rcases h.postSend hop.1.1 hop.1.2 hop.2 with
      ⟨_, _, v, cq, hok, hacc, _, _, _, _, _, _, _, hitems'⟩
    refine ⟨_, hok, ⟨hacc, hh.updateCq v e.sendCq cq (fun hne => absurd rfl hne) ?_⟩, trivial⟩
    rw [hitems']
    exact hh.recvs e.sendCq
  | postRecv wr =>
    rcases h.postRecv hop.1.1 hop.1.2 hop.2 with ⟨_, v, cq, hok, hacc, hitems', _⟩
    refine ⟨_, hok, ⟨hacc, hh.updateCq v e.recvCq cq ?_ fun hne => absurd rfl hne⟩, trivial⟩
    rw [hitems']
    exact hh.sends e.recvCq
  | sendCompletion k wc => exact h.step_sendCompletion hh hop.1 wc
  | recvCompletion k withImm wc => exact h.step_recvCompletion hh hop.1 withImm wc
  | pollVirtualCq c numEntries => exact h.step_pollVirtualCq hh c numEntries

end

/-- Physical completions are charged to the right virtual work request. -/
theorem charges_of_apart {qpNums : List ℕ} {notifyQpNum : ℕ} (hne : qpNums ≠ [])
    (hnodup : (notifyQpNum :: qpNums).Nodup) (maxMsgCntPerQp : ℤ) {maxMsgSize : ℤ}
    (hmax : 1 ≤ maxMsgSize) (sendCq recvCq : ℕ) (ops : List Op) (op : Op)
    (hadm : Admissible step Apart []
      (create qpNums notifyQpNum maxMsgCntPerQp maxMsgSize .SPRAY sendCq recvCq) (ops ++ [op])) :
    ∃ e e', run step (create qpNums notifyQpNum maxMsgCntPerQp maxMsgSize .SPRAY sendCq recvCq)
        ops = .ok e ∧ e.step op = .ok e' ∧ Charges e op e' ∧ Counted e' := by
  have hstart := accounts_create hne hnodup maxMsgCntPerQp hmax sendCq recvCq
  have hhome : Homed (create qpNums notifyQpNum maxMsgCntPerQp maxMsgSize .SPRAY sendCq recvCq) :=
    ⟨fun _ _ => rfl, fun _ _ => rfl⟩
  rcases run_last_step (fun _ e => Accounts e ∧ Homed e) (fun past e op h hop => by
      rcases h.1.step h.2 hop with ⟨e', he', hinv, _⟩
      exact ⟨e', he', hinv⟩) ops op ⟨hstart, hhome⟩ hadm with
    ⟨e, e', hrun, ⟨hacc, hh⟩, hop, hstep, hacc', _⟩
  rcases hacc.step hh hop with ⟨e'', hstep', _, hcharges⟩
  rw [hstep, Except.ok.injEq] at hstep'
  subst hstep'
  exact ⟨e, e', hrun, hstep, hcharges, hacc'.counted⟩

/-- A shared CQ, a message with a notification, a receive and a poll. -/
theorem charges_of_apart_shared_cq :
    ∃ e e', run step (create [10, 11] 12 4 100 .SPRAY 0 0)
        [.postRecv ⟨2, none, 0⟩,
          .postSend ⟨1, some ⟨0, 150, 0⟩, 1, .IBV_WR_RDMA_WRITE_WITH_IMM, 0, 5, 0, 0⟩,
          .sendCompletion (some 1) {}, .recvCompletion none true {},
          .sendCompletion (some 0) {}, .sendCompletion none {}] = .ok e ∧
      e.step (.pollVirtualCq 0 8) = .ok e' ∧ Charges e (.pollVirtualCq 0 8) e' ∧ Counted e' :=
  charges_of_apart (by decide) (by decide) 4 (by decide) 0 0 _ _ (by decide)

theorem ChargedOnce.ne {id : ℕ} (h : ChargedOnce id que que') : que' ≠ que := by
  rcases h with ⟨l, w, r, physicalWc, rfl, rfl, _, _⟩
  intro heq
  have hw := (List.cons.inj (List.append_cancel_left heq)).1
  have hcount := congrArg VirtualWc.remainingMsgCnt hw
  rw [VirtualWc.charge_remainingMsgCnt] at hcount
  omega

/-- A receive and a send with the same id on one CQ: the completion of the receive is charged to
the send. -/
theorem not_charges_of_wellFormed :
    ¬ ∀ (qpNums : List ℕ) (notifyQpNum : ℕ) (maxMsgCntPerQp maxMsgSize : ℤ) (sendCq recvCq : ℕ)
      (ops : List Op) (op : Op), qpNums ≠ [] → (notifyQpNum :: qpNums).Nodup → 1 ≤ maxMsgSize →
      Admissible step WellFormed []
        (create qpNums notifyQpNum maxMsgCntPerQp maxMsgSize .SPRAY sendCq recvCq) (ops ++ [op]) →
      ∃ e e', run step (create qpNums notifyQpNum maxMsgCntPerQp maxMsgSize .SPRAY sendCq recvCq)
          ops = .ok e ∧ e.step op = .ok e' ∧ Charges e op e' ∧ Counted e' := by
  intro hall
  rcases hall [10, 11] 12 4 100 0 0 [.postRecv ⟨7, none, 0⟩,
    .postSend ⟨7, some ⟨0, 10, 0⟩, 1, .IBV_WR_RDMA_WRITE, 2, 0, 0, 0⟩]
    (.recvCompletion none true {}) (by decide) (by decide) (by decide) (by decide) with
    ⟨e, e', hrun, hstep, hcharges, _⟩
  cases hrun
  cases hstep
  exact (hcharges _ _ _ rfl rfl).1.ne rfl

end Endpoint
end TorchComms.Ibverbx
