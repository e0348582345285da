import TorchComms.Ibverbx.Charging
import TorchComms.Ibverbx.DqplbRecv

/-! # The accounts of an endpoint in DQPLB mode

Every virtual send waits for as many parts as it has left, as in SPRAY mode, and asks for no
notification of its own. A virtual receive waits for the count of its message; which physical
receives these are the CQ does not know.
-/
namespace TorchComms.Ibverbx

open Foundation

namespace IbvVirtualCq

/-- Counting changes no field of a virtual receive but the parts left, which it may clear. -/
theorem notifyRecvs_wc (n : ℤ) (ws : List VirtualWc) :
    (notifyRecvs n ws).map VirtualWc.wc = ws.map VirtualWc.wc := by
  induction ws generalizing n with
  | nil => rfl
  | cons w ws ih =>
    rw [notifyRecvs]
    split
    · split
      · rw [List.map_cons, List.map_cons, ih]
      · rw [List.map_cons, List.map_cons, ih]
    · rfl

theorem notifyRecvs_nonneg (n : ℤ) {ws : List VirtualWc} (h : ∀ w ∈ ws, 0 ≤ w.remainingMsgCnt) :
    ∀ w ∈ notifyRecvs n ws, 0 ≤ w.remainingMsgCnt := by
  induction ws generalizing n with
  | nil => exact h
  | cons w ws ih =>
    rw [List.forall_mem_cons] at h
    rw [notifyRecvs]
    split
    · split
      · exact List.forall_mem_cons.mpr ⟨le_rfl, ih (n - 1) h.2⟩
      · exact List.forall_mem_cons.mpr ⟨h.1, ih n h.2⟩
    · exact List.forall_mem_cons.mpr h

end IbvVirtualCq

/-! ### The ledger where receives are counted -/

theorem Charged.recount {ptr : ℕ → WcPtr} {que : StableDeque VirtualWc}
    {map : ℕ → Option (Option WcPtr)} {left : ℕ → ℤ} (h : Charged ptr que map left)
    (que' : StableDeque VirtualWc)
    (hpopped : que'.popped = que.popped) (hids : wrIds que' = wrIds que)
    (hnonneg : ∀ w ∈ que'.items, 0 ≤ w.remainingMsgCnt) :
    ∃ left', (∀ id, 0 ≤ left' id) ∧ Charged ptr que' map left' := by
  have hnodup : (que'.items.map VirtualWc.wr_id).Nodup := by
    have hold := h.nodup
    rw [← hids] at hold
    exact hold
  refine ⟨fun id => ((que'.items.find? fun w => w.wr_id = id).map VirtualWc.remainingMsgCnt).getD 0,
    ?_, hnodup, ?_, ?_, ?_⟩
  · intro id
    simp only
    cases hfind : que'.items.find? fun w => w.wr_id = id with
    | none => exact le_rfl
    | some w => exact hnonneg w (List.mem_of_find?_eq_some hfind)
  · intro i w hw
    rw [StableDeque.get?_eq_some, hpopped] at hw
    have hid : (wrIds que)[i - que.popped]? = some w.wr_id := by
      rw [← hids, wrIds, List.getElem?_map, hw.2]
      rfl
    rw [wrIds, List.getElem?_map, Option.map_eq_some_iff] at hid
    rcases hid with ⟨u, hu, huid⟩
    rw [← huid]
    exact h.named i u (StableDeque.get?_eq_some.mpr ⟨hw.1, hu⟩)
  · intro w hw
    have hsome : (que'.items.find? fun u => u.wr_id = w.wr_id).isSome := by
      rw [List.find?_isSome]
      exact ⟨w, hw, by simp⟩
    rcases Option.isSome_iff_exists.mp hsome with ⟨u, hu⟩
    have hid := List.find?_some hu
    rw [decide_eq_true_eq] at hid
    have huw : u = w := List.inj_on_of_nodup_map hnodup (List.mem_of_find?_eq_some hu) hw hid
    simp only [hu, huw, Option.map_some, Option.getD_some]
  · intro id hid
    have hnone : (que'.items.find? fun w => w.wr_id = id) = none := by
      rw [List.find?_eq_none]
      rintro w hw hwid
      rw [decide_eq_true_eq] at hwid
      exact hid (hwid ▸ List.mem_map_of_mem hw)
    simp only [hnone, Option.map_none, Option.getD_none]

theorem Ledger.processNotifyCount {cq : IbvVirtualCq} {sent received : ℕ → ℤ}
    (h : Ledger cq sent received) (hnonneg : ∀ id, 0 ≤ received id) (n : ℤ) :
    ∃ received', (∀ id, 0 ≤ received' id) ∧ Ledger (cq.processNotifyCount n) sent received' := by
  have hids : wrIds (cq.processNotifyCount n).pendingRecvVirtualWcQue_ =
      wrIds cq.pendingRecvVirtualWcQue_ := by
    have hwc := congrArg (List.map IbvWc.wr_id)
      (IbvVirtualCq.notifyRecvs_wc n cq.pendingRecvVirtualWcQue_.items)
    rw [List.map_map, List.map_map] at hwc
    exact hwc
  have hitems : ∀ w ∈ (cq.processNotifyCount n).pendingRecvVirtualWcQue_.items,
      0 ≤ w.remainingMsgCnt := by
    apply IbvVirtualCq.notifyRecvs_nonneg
    intro w hw
    rw [h.recv.exact w hw]
    exact hnonneg _
  rcases h.recv.recount (cq.processNotifyCount n).pendingRecvVirtualWcQue_ rfl hids hitems
    with ⟨received', hnonneg', hrecv⟩
  refine ⟨received', hnonneg', h.send, hrecv, ?_⟩
  rw [hids]
  exact h.apart

namespace Endpoint

variable {e : Endpoint} {v : IbvVirtualQp} {cq : IbvVirtualCq} {k : Option ℕ} {q : IbvQp} {c : ℕ}

structure DqplbAccounts (e : Endpoint) : Prop where
  sending : e.vqp.Sending
  preposted : e.vqp.Preposted
  size : 1 ≤ e.vqp.maxMsgSize_
  ledger : ∀ c, ∃ received, (∀ id, 0 ≤ received id) ∧ Ledger (e.cqs c) (e.sentLeft c) received
  plain : ∀ w ∈ (e.cqs e.sendCq).pendingSendVirtualWcQue_.items, w.sendExtraNotifyImm = false

section

variable (h : DqplbAccounts e)
include h

/-- One CQ has changed, and the parts left of the sends that are on it. -/
theorem DqplbAccounts.updateCq (hs : v.Sending) (hp : v.Preposted)
    (hsize : v.maxMsgSize_ = e.vqp.maxMsgSize_)
    (hleft : c = e.sendCq ∨ ∀ id, v.sendLeft id = e.vqp.sendLeft id)
    (hcq : ∃ received, (∀ id, 0 ≤ received id) ∧
      Ledger cq (({ e with vqp := v } : Endpoint).sentLeft c) received)
    (hplain : c = e.sendCq →
      ∀ w ∈ cq.pendingSendVirtualWcQue_.items, w.sendExtraNotifyImm = false) :
    DqplbAccounts ({ e with vqp := v }.updateCq c cq) where
  sending := hs
  preposted := hp
  size := by
    have hold := h.size
    rw [← hsize] at hold
    exact hold
  ledger := by
    intro c'
    by_cases hc : c' = c
    · subst hc
      simp only [Endpoint.updateCq, Function.update_self]
      exact hcq
    · rcases h.ledger c' with ⟨received, hnonneg, hold⟩
      simp only [Endpoint.updateCq, Function.update_of_ne hc]
      refine ⟨received, hnonneg, hold.of_left ?_ fun _ => rfl⟩
      intro id
      simp only [sentLeft]
      by_cases hsend : c' = e.sendCq
      · rw [if_pos hsend, if_pos hsend]
        rcases hleft with rfl | hleft
        · exact absurd hsend hc
        · exact hleft id
      · rw [if_neg hsend, if_neg hsend]
  plain := by
    intro w hw
    by_cases hc : e.sendCq = c
    · subst hc
      simp only [Endpoint.updateCq, Function.update_self] at hw
      exact hplain rfl w hw
    · simp only [Endpoint.updateCq, Function.update_of_ne hc] at hw
      exact h.plain w hw

theorem DqplbAccounts.sendLedger :
    ∃ received, (∀ id, 0 ≤ received id) ∧ Ledger (e.cqs e.sendCq) e.vqp.sendLeft received := by
  rcases h.ledger e.sendCq with ⟨received, hnonneg, hledger⟩
  exact ⟨received, hnonneg, hledger.of_left (fun _ => (if_pos rfl).symm) fun _ => rfl⟩

theorem DqplbAccounts.moved {u : IbvVirtualQp} (hs : v.Sending)
    (hmoved : IbvVirtualQp.Moved u v) (hparts : u.qps.map IbvQp.recvPart = e.vqp.qps.map IbvQp.recvPart)
    (hscheme : u.loadBalancingScheme_ = e.vqp.loadBalancingScheme_) : v.Preposted where
  scheme := (hmoved.scheme.trans hscheme).trans h.preposted.scheme
  wired := hs.wired
  mirror := IbvVirtualQp.forall_of_map (P := fun p => p.1 = p.2.outstanding.map RecvWqe.status)
    (hmoved.recvPart.trans hparts) h.preposted.mirror

theorem DqplbAccounts.postSend {wr : IbvSendWr} (hwr : IbvVirtualQp.Sendable e.vqp.maxMsgSize_ wr)
    (hsend : wr.wr_id ∉ wrIds (e.cqs e.sendCq).pendingSendVirtualWcQue_)
    (hrecv : wr.wr_id ∉ wrIds (e.cqs e.sendCq).pendingRecvVirtualWcQue_) :
    ∃ (n : ℤ) (v : IbvVirtualQp) (cq : IbvVirtualCq),
      e.postSend wr = .ok ({ e with vqp := v }.updateCq e.sendCq cq) ∧
      DqplbAccounts ({ e with vqp := v }.updateCq e.sendCq cq) ∧
      cq.pendingSendVirtualWcQue_ = (e.cqs e.sendCq).pendingSendVirtualWcQue_.push_back
        (.fresh wr.wr_id v.virtualQpNum_ n false) ∧
      cq.pendingRecvVirtualWcQue_ = (e.cqs e.sendCq).pendingRecvVirtualWcQue_ := by
  rcases IbvVirtualQp.postSend_spec h.sending h.size hwr with
    ⟨n, extra, v, hpost, hn, _, _, hextra, hs, hmoved, _⟩
  have hplain : extra = false := by
    rw [h.preposted.scheme] at hextra
    cases extra with
    | false => rfl
    | true => exact absurd (hextra.mp rfl).2 (by decide)
  subst hplain
  have hleft : ∀ id, v.sendLeft id = e.vqp.sendLeft id + if wr.wr_id = id then n else 0 := by
    intro id
    rw [hmoved.left, IbvVirtualQp.sendLeft_push, share, hwr.divisible.ofWr n false]
    rfl
  have hsig : wr.signaled ∨ wr.opcode = .IBV_WR_RDMA_WRITE_WITH_IMM := hwr.signaled.symm
  rcases h.sendLedger with ⟨received, hnonneg, hledger⟩
  rcases hledger.pushSend hsig hsend hrecv v.virtualQpNum_ n false hleft with
    ⟨hledger', hitems, hitems'⟩
  refine ⟨n, v, _, ?_, h.updateCq hs (h.moved hs hmoved rfl rfl) hmoved.maxMsgSize (Or.inl rfl)
    ⟨received, hnonneg, hledger'.of_left (fun _ => if_pos rfl) fun _ => rfl⟩ ?_, hitems, hitems'⟩
  · simp only [Endpoint.postSend, hpost, bind, Except.bind]
    rfl
  · intro _ w hw
    rw [hitems] at hw
    rcases List.mem_append.mp hw with hw | hw
    · exact h.plain w hw
    · rw [List.mem_singleton.mp hw]
      rfl

theorem DqplbAccounts.postRecv {wr : IbvRecvWr} (hwr : IbvVirtualQp.Receivable e.vqp.maxMsgSize_ wr)
    (hrecv : wr.wr_id ∉ wrIds (e.cqs e.recvCq).pendingRecvVirtualWcQue_)
    (hsend : wr.wr_id ∉ wrIds (e.cqs e.recvCq).pendingSendVirtualWcQue_) :
    ∃ (n : ℤ) (v : IbvVirtualQp) (cq : IbvVirtualCq),
      e.postRecv wr = .ok ({ e with vqp := v }.updateCq e.recvCq cq) ∧
      DqplbAccounts ({ e with vqp := v }.updateCq e.recvCq cq) ∧
      cq.pendingSendVirtualWcQue_ = (e.cqs e.recvCq).pendingSendVirtualWcQue_ ∧
      cq.pendingRecvVirtualWcQue_ = (e.cqs e.recvCq).pendingRecvVirtualWcQue_.push_back
        (.fresh wr.wr_id e.vqp.virtualQpNum_ n false) := by
  rcases IbvVirtualQp.recvSegmentCount_spec h.size hwr with ⟨hnum, n, hcount, hn⟩
  rcases h.preposted.postRecv hnum hcount with ⟨v, hpost, hp, _, honly⟩
  have hs := honly.toSendFrame.sending h.sending hp.wired
  rcases h.ledger e.recvCq with ⟨received, hnonneg, hledger⟩
  have hledger' : Ledger _ _ fun j => received j + if wr.wr_id = j then n else 0 :=
    hledger.pushRecv hrecv hsend e.vqp.virtualQpNum_ n fun _ => rfl
  refine ⟨n, v, _, ?_, h.updateCq hs hp honly.maxMsgSize (Or.inr honly.toSendFrame.sendLeft)
    ⟨_, ?_, hledger'.of_left ?_ fun _ => rfl⟩ ?_, rfl, rfl⟩
  · simp only [Endpoint.postRecv, hpost, bind, Except.bind]
    rfl
  · intro id
    have hold := hnonneg id
    split <;> omega
  · intro id
    simp only [sentLeft, honly.toSendFrame.sendLeft]
  · intro hc w hw
    rw [hc] at hw
    exact h.plain w hw

/-- A send completion is charged to the virtual send it is a part of. -/
theorem DqplbAccounts.sendCompletion (hq : e.vqp.qp? k = some q) {x : SendWqe}
    {xs : List SendWqe} (hout : q.sq.outstanding = x :: xs) (wc : IbvWc) :
    ∃ (v : IbvVirtualQp) (cq : IbvVirtualCq) (pwc : IbvWc),
      e.sendCompletion k wc = .ok ({ e with vqp := v }.updateCq e.sendCq cq) ∧
      DqplbAccounts ({ e with vqp := v }.updateCq e.sendCq cq) ∧
      cq.pendingSendVirtualWcQue_.items = (e.cqs e.sendCq).pendingSendVirtualWcQue_.items.map
        (fun u => if u.wr_id = x.virtualWrId then u.charge pwc else u) ∧
      cq.pendingRecvVirtualWcQue_ = (e.cqs e.sendCq).pendingRecvVirtualWcQue_ ∧
      pwc.status = wc.status := by
  rcases IbvVirtualQp.completeSend_spec h.sending hq hout with
    ⟨sq, v, hcomp, _, hproc, hs, hmoved, hleft, _⟩
  have hpos : 0 < e.vqp.sendLeft x.virtualWrId :=
    h.sending.sendLeft_pos (IbvVirtualQp.mem_qps hq) (by rw [hout]; exact List.mem_cons_self)
  rcases h.sendLedger with ⟨received, hnonneg, hledger⟩
  rcases hledger.chargeSend (Int.ne_of_gt hpos) { wc with
    wr_id := x.wr.wr_id, qp_num := q.qp_num, opcode := wcOpcode x.wr.opcode } hleft with
    ⟨w, cq, hcharge, hledger', hw, _, hitems, hitems'⟩
  have heq := sendCompletion_eq hq hcomp wc hproc hcharge
  rw [VirtualWc.charge_sendExtraNotifyImm, h.plain w hw, if_neg (by simp)] at heq
  have hp : v.Preposted := by
    apply h.moved hs hmoved
    · exact IbvVirtualQp.map_setQp _ hq rfl
    · cases k <;> rfl
  have hsize : v.maxMsgSize_ = e.vqp.maxMsgSize_ := by
    rw [hmoved.maxMsgSize]
    cases k <;> rfl
  refine ⟨v, cq, _, heq, h.updateCq hs hp hsize (Or.inl rfl)
    ⟨received, hnonneg, hledger'.of_left (fun _ => if_pos rfl) fun _ => rfl⟩ ?_, hitems, hitems', rfl⟩
  intro _ u hu
  rw [hitems] at hu
  rcases List.mem_map.mp hu with ⟨u', hu', rfl⟩
  split
  · exact h.plain u' hu'
  · exact h.plain u' hu'

theorem DqplbAccounts.recvCompletion (hq : e.vqp.qp? k = some q) {x : RecvWqe}
    {xs : List RecvWqe} (hout : q.rq.outstanding = x :: xs) (withImm : Bool) (wc : IbvWc) :
    ∃ (v : IbvVirtualQp) (n : ℤ),
      e.recvCompletion k withImm wc = .ok ({ e with vqp := v }.updateCq e.recvCq
        ((e.cqs e.recvCq).processNotifyCount n)) ∧
      DqplbAccounts ({ e with vqp := v }.updateCq e.recvCq
        ((e.cqs e.recvCq).processNotifyCount n)) := by
  rcases recvCompletion_dqplb h.preposted hq hout withImm wc with ⟨v, hok, hp, _, _, honly⟩
  have hs := honly.toSendFrame.sending h.sending hp.wired
  rcases h.ledger e.recvCq with ⟨received, hnonneg, hledger⟩
  rcases hledger.processNotifyCount hnonneg
    (e.vqp.dqplbSeqTracker.processReceivedImm (if withImm then wc.imm_data else 0)).1 with
    ⟨received', hnonneg', hledger'⟩
  refine ⟨v, _, hok, h.updateCq hs hp honly.maxMsgSize (Or.inr honly.toSendFrame.sendLeft)
    ⟨received', hnonneg', hledger'.of_left ?_ fun _ => rfl⟩ ?_⟩
  · intro id
    simp only [sentLeft, honly.toSendFrame.sendLeft]
  · intro hc w hw
    rw [hc] at hw
    exact h.plain w hw

theorem DqplbAccounts.pollVirtualCq (c numEntries : ℕ) :
    ∃ received wcs cq ps pr, e.pollVirtualCq c numEntries = .ok (wcs, e.updateCq c cq) ∧
      DqplbAccounts (e.updateCq c cq) ∧
      Ledger.Polled (e.sentLeft c) received (e.cqs c) ps pr { cq := cq, wcs := wcs } := by
  rcases h.ledger c with ⟨received, hnonneg, hledger⟩
  have hsent : ∀ id, 0 ≤ e.sentLeft c id := by
    intro id
    rw [sentLeft]
    split
    · exact h.sending.sendLeft_nonneg id
    · exact le_rfl
  rcases hledger.poll hsent hnonneg numEntries with ⟨wcs, cq, ps, pr, hpoll, hpolled, _⟩
  refine ⟨received, wcs, cq, ps, pr, ?_, h.updateCq h.sending h.preposted rfl
    (Or.inr fun _ => rfl) ⟨received, hnonneg, hpolled.ledger⟩ ?_, hpolled⟩
  · simp only [Endpoint.pollVirtualCq, hpoll, bind, Except.bind]
  · rintro rfl w hw
    have hsends := hpolled.sends
    exact h.plain w (by rw [hsends]; exact List.mem_append_right _ hw)

end

theorem dqplbAccounts_create {qpNums : List ℕ} {notifyQpNum : ℕ} (hne : qpNums ≠ [])
    (hnodup : (notifyQpNum :: qpNums).Nodup) (maxMsgCntPerQp : ℤ) {maxMsgSize : ℤ}
    (hmax : 1 ≤ maxMsgSize) (sendCq recvCq : ℕ) :
    DqplbAccounts (create qpNums notifyQpNum maxMsgCntPerQp maxMsgSize .DQPLB sendCq recvCq) where
  sending := IbvVirtualQp.sending_create hne hnodup maxMsgCntPerQp maxMsgSize .DQPLB
  preposted := by
    refine ⟨rfl, IbvVirtualQp.wired_create hne hnodup maxMsgCntPerQp maxMsgSize .DQPLB, ?_⟩
    intro q hq
    rcases IbvVirtualQp.fresh_of_mem_create hq with ⟨n, rfl⟩
    rfl
  size := hmax
  ledger := by
    intro c
    refine ⟨fun _ => 0, fun _ => le_rfl, Ledger.empty.of_left ?_ fun _ => rfl⟩
    intro id
    rw [sentLeft]
    split
    · exact IbvVirtualQp.sendLeft_create ..
    · rfl
  plain := by simp [create]

end Endpoint
end TorchComms.Ibverbx
