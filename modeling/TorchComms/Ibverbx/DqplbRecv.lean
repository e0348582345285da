import TorchComms.Ibverbx.InFlight

/-! # Receiving in DQPLB mode: receives posted in advance

The physical receives belong to no virtual receive. Each completion is replaced at once, and the
notifications it releases complete the oldest virtual receives that are not complete.
-/
namespace TorchComms.Ibverbx

open Foundation

namespace IbvVirtualQp

variable {v v' : IbvVirtualQp} {k : Option ℕ} {q : IbvQp}

structure Preposted (v : IbvVirtualQp) : Prop where
  scheme : v.loadBalancingScheme_ = .DQPLB
  wired : v.Wired
  mirror : ∀ q ∈ v.qps, q.physicalRecvWrStatus_ = q.rq.outstanding.map RecvWqe.status

/-- What posting notification receives leaves as it is. -/
structure SameTracker (v v' : IbvVirtualQp) : Prop where
  tracker : v'.dqplbSeqTracker = v.dqplbSeqTracker
  length : v'.physicalQps_.length = v.physicalQps_.length

theorem SameTracker.refl (v : IbvVirtualQp) : SameTracker v v := ⟨rfl, rfl⟩

variable {v'' : IbvVirtualQp}

theorem SameTracker.trans (h : SameTracker v v') (h' : SameTracker v' v'') : SameTracker v v'' :=
  ⟨h'.tracker.trans h.tracker, h'.length.trans h.length⟩

/-- Receiving has left sending alone. -/
structure RecvOnly (v v' : IbvVirtualQp) : Prop extends SendFrame v v' where
  maxMsgSize : v'.maxMsgSize_ = v.maxMsgSize_

theorem RecvOnly.refl (v : IbvVirtualQp) : RecvOnly v v := ⟨SendFrame.refl v, rfl⟩

theorem RecvOnly.trans (h : RecvOnly v v') (h' : RecvOnly v' v'') : RecvOnly v v'' :=
  ⟨h.toSendFrame.trans h'.toSendFrame, h'.maxMsgSize.trans h.maxMsgSize⟩

theorem recvOnly_setQp {q' : IbvQp} (hq : v.qp? k = some q) (hpart : q'.sendPart = q.sendPart) :
    RecvOnly v (v.setQp k q') :=
  ⟨sendFrame_setQp hq hpart, by cases k <;> rfl⟩

theorem recvOnly_prepostRecv (v : IbvVirtualQp) (j : ℕ) : RecvOnly v (v.prepostRecv j) := by
  refine ⟨⟨?_, rfl, rfl, rfl⟩, rfl⟩
  simp only [qps, prepostRecv, List.map_cons]
  congr 1
  apply List.ext_getElem?
  intro n
  rw [List.getElem?_map, List.getElem?_map, List.getElem?_modify]
  cases v.physicalQps_[n]? with
  | none => rfl
  | some q => by_cases hjn : j = n <;> simp [hjn, IbvQp.postRecv, IbvQp.sendPart]

theorem recvOnly_prepostRecvs (v : IbvVirtualQp) (js : List ℕ) :
    RecvOnly v (js.foldl prepostRecv v) := by
  induction js generalizing v with
  | nil => exact RecvOnly.refl v
  | cons j js ih => exact (recvOnly_prepostRecv v j).trans (ih _)

theorem recvOnly_initializeDqplbReceiver (v : IbvVirtualQp) :
    RecvOnly v v.initializeDqplbReceiver := by
  have hrounds : ∀ (rounds : List ℕ) (u : IbvVirtualQp), RecvOnly u (rounds.foldl (fun u _ =>
      (List.range u.physicalQps_.length).foldl prepostRecv u) u) := by
    intro rounds
    induction rounds with
    | nil => exact RecvOnly.refl
    | cons n rounds ih =>
      intro u
      exact (recvOnly_prepostRecvs u _).trans (ih _)
  have hall := hrounds (List.range v.maxMsgCntPerQp_.toNat) v
  exact ⟨⟨hall.parts, hall.pending, hall.notifyQue, hall.next⟩, hall.maxMsgSize⟩

/-- A QP whose receives and records of them changed together. -/
theorem Preposted.setQp (h : Preposted v) (hq : v.qp? k = some q) (q' : IbvQp)
    (hnum : q'.qp_num = q.qp_num)
    (hmirror : q'.physicalRecvWrStatus_ = q'.rq.outstanding.map RecvWqe.status) :
    Preposted (v.setQp k q') ∧ SameTracker v (v.setQp k q') := by
  have hqs := qps_setQp v k q'
  refine ⟨⟨?_, ?_, ?_⟩, ?_, ?_⟩
  · cases k <;> exact h.scheme
  · apply h.wired.of_eq
    · cases k <;> rfl
    · exact map_setQp _ hq hnum
  · intro p hp
    rcases mem_of_mem_set (hqs ▸ hp) with rfl | hp
    · exact hmirror
    · exact h.mirror p hp
  · cases k <;> rfl
  · cases k <;> simp [IbvVirtualQp.setQp]

theorem mirror_postRecv (hmirror : q.physicalRecvWrStatus_ = q.rq.outstanding.map RecvWqe.status)
    (wr : IbvRecvWr) (virtualWrId : ℕ) :
    (q.postRecv wr virtualWrId).physicalRecvWrStatus_ =
      (q.postRecv wr virtualWrId).rq.outstanding.map RecvWqe.status := by
  simp [IbvQp.postRecv, hmirror, RecvWqe.status]

section

variable (h : Preposted v)
include h

theorem Preposted.counter (n : ℕ) : Preposted { v with nextPhysicalWrId_ := n } :=
  ⟨h.scheme, h.wired.of_eq rfl rfl, h.mirror⟩

theorem Preposted.postRecvNotifyImm (hq : v.qp? k = some q) :
    ∃ v', v.postRecvNotifyImm k = .ok v' ∧ Preposted v' ∧ SameTracker v v' ∧ RecvOnly v v' := by
  rcases h.setQp hq (q.postRecv (notifyRecvWr v.nextPhysicalWrId_) noVirtualWrId) rfl
    (mirror_postRecv (h.mirror q (mem_qps hq)) _ _) with ⟨h', hsame⟩
  have honly := recvOnly_setQp hq
    (show (q.postRecv (notifyRecvWr v.nextPhysicalWrId_) noVirtualWrId).sendPart = q.sendPart from rfl)
  refine ⟨_, ?_, h'.counter (v.nextPhysicalWrId_ + 1), ⟨hsame.tracker, hsame.length⟩,
    ⟨honly.parts, honly.pending, honly.notifyQue, honly.next⟩, honly.maxMsgSize⟩
  simp only [IbvVirtualQp.postRecvNotifyImm, hq]
  split
  · rename_i hscheme
    rw [h.scheme] at hscheme
    cases hscheme
  · rfl

/-! ### Posting -/

theorem Preposted.prepostRecv (j : ℕ) :
    Preposted (v.prepostRecv j) ∧ SameTracker v (v.prepostRecv j) := by
  cases hq : v.physicalQps_[j]? with
  | none =>
    have hmodify : v.physicalQps_.modify j (fun q =>
        q.postRecv (notifyRecvWr v.nextPhysicalWrId_) noVirtualWrId) = v.physicalQps_ := by
      exact List.modify_eq_self (List.getElem?_eq_none_iff.mp hq)
    simp only [IbvVirtualQp.prepostRecv, hmodify]
    exact ⟨h.counter _, rfl, rfl⟩
  | some q =>
    have hmodify : v.physicalQps_.modify j (fun q =>
        q.postRecv (notifyRecvWr v.nextPhysicalWrId_) noVirtualWrId) =
          v.physicalQps_.set j (q.postRecv (notifyRecvWr v.nextPhysicalWrId_) noVirtualWrId) := by
      apply List.ext_getElem?
      intro n
      rw [List.getElem?_modify, List.getElem?_set]
      by_cases hjn : j = n
      · subst hjn
        rw [hq, if_pos rfl, if_pos (List.getElem?_eq_some_iff.mp hq).1]
        simp
      · simp [hjn]
    have hqp : v.qp? (some j) = some q := hq
    rcases h.setQp hqp (q.postRecv (notifyRecvWr v.nextPhysicalWrId_) noVirtualWrId) rfl
      (mirror_postRecv (h.mirror q (mem_qps hqp)) _ _) with ⟨h', hsame⟩
    simp only [IbvVirtualQp.prepostRecv, hmodify]
    exact ⟨h'.counter _, hsame.tracker, hsame.length⟩

theorem Preposted.prepostRecvs (js : List ℕ) :
    Preposted (js.foldl IbvVirtualQp.prepostRecv v) ∧
      SameTracker v (js.foldl IbvVirtualQp.prepostRecv v) := by
  induction js generalizing v with
  | nil => exact ⟨h, SameTracker.refl v⟩
  | cons j js ih =>
    rcases h.prepostRecv j with ⟨h', hsame⟩
    rcases ih h' with ⟨h'', hsame'⟩
    exact ⟨h'', hsame.trans hsame'⟩

theorem Preposted.rounds (rounds : List ℕ) :
    Preposted (rounds.foldl (fun v _ =>
        (List.range v.physicalQps_.length).foldl IbvVirtualQp.prepostRecv v) v) ∧
      SameTracker v (rounds.foldl (fun v _ =>
        (List.range v.physicalQps_.length).foldl IbvVirtualQp.prepostRecv v) v) := by
  induction rounds generalizing v with
  | nil => exact ⟨h, SameTracker.refl v⟩
  | cons n rounds ih =>
    rcases h.prepostRecvs (List.range v.physicalQps_.length) with ⟨h', hsame⟩
    rcases ih h' with ⟨h'', hsame'⟩
    exact ⟨h'', hsame.trans hsame'⟩

theorem Preposted.initializeDqplbReceiver :
    Preposted v.initializeDqplbReceiver ∧ SameTracker v v.initializeDqplbReceiver := by
  rcases h.rounds (List.range v.maxMsgCntPerQp_.toNat) with ⟨h', hsame⟩
  exact ⟨⟨h'.scheme, h'.wired.of_eq rfl rfl, h'.mirror⟩, hsame.tracker, hsame.length⟩

theorem Preposted.postRecv {wr : IbvRecvWr} {n : ℤ} (hnum : ¬ 1 < wr.num_sge)
    (hcount : v.recvSegmentCount wr = .ok n) :
    ∃ v', v.postRecv wr = .ok (.RECV v.virtualQpNum_ n wr, v') ∧ Preposted v' ∧
      SameTracker v v' ∧ RecvOnly v v' := by
  have hadd : Preposted { v with pendingRecvVirtualWrQue_ :=
      v.pendingRecvVirtualWrQue_ ++ [VirtualRecvWr.ofWr wr n] } :=
    ⟨h.scheme, h.wired.of_eq rfl rfl, h.mirror⟩
  have honly : RecvOnly v { v with pendingRecvVirtualWrQue_ :=
      v.pendingRecvVirtualWrQue_ ++ [VirtualRecvWr.ofWr wr n] } := ⟨⟨rfl, rfl, rfl, rfl⟩, rfl⟩
  by_cases hdone : v.dqplbReceiverInitialized_
  · refine ⟨_, ?_, hadd, ⟨rfl, rfl⟩, honly⟩
    simp only [IbvVirtualQp.postRecv, hnum, if_false, hcount, bind, Except.bind, h.scheme, hdone,
      if_true]
  · rcases hadd.initializeDqplbReceiver with ⟨h', hsame⟩
    refine ⟨_, ?_, h', ⟨hsame.tracker, hsame.length⟩,
      honly.trans (recvOnly_initializeDqplbReceiver _)⟩
    simp only [IbvVirtualQp.postRecv, hnum, if_false, hcount, bind, Except.bind, h.scheme, hdone,
      Bool.false_eq_true]

end

theorem recvSegmentCount_notify (v : IbvVirtualQp) {wr : IbvRecvWr} (hwr : wr.num_sge = 0) :
    ¬ 1 < wr.num_sge ∧ v.recvSegmentCount wr = .ok 1 := by
  constructor
  · rw [hwr]
    decide
  · rw [recvSegmentCount, if_neg (by rw [hwr]; decide)]

/-! ### Completing -/

theorem processRequest_recv_dqplb {n wrId virtualWrId : ℕ} {sts : List PhysicalWrStatus}
    (hscheme : (v.setQp k { q with physicalRecvWrStatus_ := sts }).loadBalancingScheme_ = .DQPLB)
    (hidx : v.idxOfQpNum n = .ok k) (hq : v.qp? k = some q)
    (hst : q.physicalRecvWrStatus_ = ⟨wrId, virtualWrId⟩ :: sts) (immData : ℕ)
    (hpost : (v.setQp k { q with physicalRecvWrStatus_ := sts }).postRecvNotifyImm k = .ok v') :
    v.processRequest ⟨.RECV, wrId, n, immData⟩ =
      .ok (⟨virtualWrId, true, (v'.dqplbSeqTracker.processReceivedImm immData).1⟩, { v' with
        dqplbSeqTracker := (v'.dqplbSeqTracker.processReceivedImm immData).2 }) := by
  simp only [processRequest, hidx, bind, Except.bind, hq, processRecv, hst, ne_eq,
    not_true_eq_false, if_false, hscheme, hpost]

theorem Preposted.completeRecv (h : Preposted v) (hq : v.qp? k = some q) {x : RecvWqe}
    {xs : List RecvWqe} (hout : q.rq.outstanding = x :: xs) (immData : ℕ) :
    ∃ q' v' virtualWrId, q.completeRecv = some (x, q') ∧
      (v.setQp k q').processRequest ⟨.RECV, x.wr.wr_id, q.qp_num, immData⟩ =
        .ok (⟨virtualWrId, true, (v.dqplbSeqTracker.processReceivedImm immData).1⟩, v') ∧
      Preposted v' ∧ v'.physicalQps_.length = v.physicalQps_.length ∧
      v'.dqplbSeqTracker = (v.dqplbSeqTracker.processReceivedImm immData).2 ∧ RecvOnly v v' := by
  rcases WorkQueue.completeNext_of_front (fun _ => true) hout rfl with ⟨rq, hcomplete, hrq, _, _⟩
  have hmirror := h.mirror q (mem_qps hq)
  rw [hout, List.map_cons] at hmirror
  have hcomp : q.completeRecv = some (x, { q with rq := rq }) := by
    simp only [IbvQp.completeRecv, hcomplete, Option.map_some]
  have hget : (v.setQp k { q with rq := rq }).qp? k = some { q with rq := rq } := by
    rw [qp?_setQp hq, if_pos rfl]
  have hwired : (v.setQp k { q with rq := rq }).Wired := by
    apply h.wired.of_eq
    · cases k <;> rfl
    · exact map_setQp _ hq rfl
  have hidx := hwired.index k _ hget
  have hst : ({ q with rq := rq } : IbvQp).physicalRecvWrStatus_ =
      ⟨x.wr.wr_id, x.virtualWrId⟩ :: xs.map RecvWqe.status := hmirror
  rcases h.setQp hq { q with rq := rq, physicalRecvWrStatus_ := xs.map RecvWqe.status } rfl
    (by rw [hrq]) with ⟨h', hsame⟩
  rcases h'.postRecvNotifyImm (q := { q with
      rq := rq, physicalRecvWrStatus_ := xs.map RecvWqe.status })
    (by rw [qp?_setQp hq, if_pos rfl]) with ⟨v', hpost, h'', hsame', honly'⟩
  have honly := (recvOnly_setQp hq (show ({ q with
    rq := rq, physicalRecvWrStatus_ := xs.map RecvWqe.status } : IbvQp).sendPart = q.sendPart
    from rfl)).trans honly'
  have htracker : v'.dqplbSeqTracker = v.dqplbSeqTracker := hsame'.tracker.trans hsame.tracker
  rw [← setQp_setQp v k { q with rq := rq }] at hpost
  have hproc := processRequest_recv_dqplb (by rw [setQp_setQp]; exact h'.scheme) hidx hget hst
    immData hpost
  rw [htracker] at hproc
  exact ⟨_, _, _, hcomp, hproc, ⟨h''.scheme, h''.wired.of_eq rfl rfl, h''.mirror⟩,
    hsame'.length.trans hsame.length, rfl,
    ⟨honly.parts, honly.pending, honly.notifyQue, honly.next⟩, honly.maxMsgSize⟩

end IbvVirtualQp

/-- What arrives is counted, as number 0 without immediate data, and completes virtual receives. -/
theorem Endpoint.recvCompletion_dqplb {e : Endpoint} (h : e.vqp.Preposted) {k : Option ℕ}
    {q : IbvQp} (hq : e.vqp.qp? k = some q) {x : RecvWqe} {xs : List RecvWqe}
    (hout : q.rq.outstanding = x :: xs) (withImm : Bool) (wc : IbvWc) :
    ∃ v', e.recvCompletion k withImm wc = .ok ({ e with vqp := v' }.updateCq e.recvCq
        ((e.cqs e.recvCq).processNotifyCount
          (e.vqp.dqplbSeqTracker.processReceivedImm (if withImm then wc.imm_data else 0)).1)) ∧
      v'.Preposted ∧ v'.physicalQps_.length = e.vqp.physicalQps_.length ∧
      v'.dqplbSeqTracker =
        (e.vqp.dqplbSeqTracker.processReceivedImm (if withImm then wc.imm_data else 0)).2 ∧
      e.vqp.RecvOnly v' := by
  rcases h.completeRecv hq hout (if withImm then wc.imm_data else 0) with
    ⟨q', v', virtualWrId, hcomp, hproc, h', hlen, htracker, honly⟩
  refine ⟨v', ?_, h', hlen, htracker, honly⟩
  cases withImm with
  | false =>
    simp only [Bool.false_eq_true, if_false] at hproc ⊢
    simp only [Endpoint.recvCompletion, hq, hcomp, Endpoint.processRecvWc, Bool.false_eq_true,
      if_false, reduceCtorEq, hproc, if_true, bind, Except.bind]
  | true =>
    simp only [if_true] at hproc ⊢
    simp only [Endpoint.recvCompletion, hq, hcomp, Endpoint.processRecvWc, if_true, hproc, bind,
      Except.bind]

/-! ### Virtual receives -/

/-- How many of the virtual completions are complete. -/
def completeCount (ws : List VirtualWc) : ℕ := ws.countP fun w => w.remainingMsgCnt = 0

/-- A virtual receive of a notification is complete or not. -/
def Unit01 (ws : List VirtualWc) : Prop :=
  ∀ w ∈ ws, w.remainingMsgCnt = 0 ∨ w.remainingMsgCnt = 1

theorem notifyRecvs_spec (ws : List VirtualWc) (n : ℕ) (h : Unit01 ws) :
    (IbvVirtualCq.notifyRecvs n ws).length = ws.length ∧ Unit01 (IbvVirtualCq.notifyRecvs n ws) ∧
      completeCount (IbvVirtualCq.notifyRecvs n ws) = min ws.length (completeCount ws + n) := by
  induction ws generalizing n with
  | nil => exact ⟨rfl, h, by simp [IbvVirtualCq.notifyRecvs, completeCount]⟩
  | cons w ws ih =>
    have hw := h w List.mem_cons_self
    have hws : Unit01 ws := fun x hx => h x (List.mem_cons_of_mem _ hx)
    have hle : completeCount ws ≤ ws.length := List.countP_le_length
    cases n with
    | zero =>
      refine ⟨by simp [IbvVirtualCq.notifyRecvs], by simpa [IbvVirtualCq.notifyRecvs] using h, ?_⟩
      have hle' : completeCount (w :: ws) ≤ (w :: ws).length := List.countP_le_length
      simp only [IbvVirtualCq.notifyRecvs, Nat.cast_zero, lt_self_iff_false, if_false]
      omega
    | succ n =>
      have hpos : (0 : ℤ) < (n + 1 : ℕ) := by omega
      by_cases hzero : w.remainingMsgCnt = 0
      · rcases ih (n + 1) hws with ⟨hlen, hunit, hcount⟩
        simp only [IbvVirtualCq.notifyRecvs, hpos, if_true, hzero, ne_eq, not_true_eq_false, if_false]
        refine ⟨by rw [List.length_cons, hlen, List.length_cons], ?_, ?_⟩
        · intro x hx
          rcases List.mem_cons.mp hx with rfl | hx
          · exact Or.inl hzero
          · exact hunit x hx
        · simp only [completeCount, List.countP_cons, hzero, decide_true, if_true,
            List.length_cons] at hcount ⊢
          omega
      · have hpred : ((n + 1 : ℕ) : ℤ) - 1 = n := by omega
        rcases ih n hws with ⟨hlen, hunit, hcount⟩
        simp only [IbvVirtualCq.notifyRecvs, hpos, if_true, hzero, ne_eq, not_false_eq_true, hpred]
        refine ⟨by simp [hlen], ?_, ?_⟩
        · intro x hx
          rcases List.mem_cons.mp hx with rfl | hx
          · exact Or.inl rfl
          · exact hunit x hx
        · simp only [completeCount, List.countP_cons, hzero, decide_true, decide_false, if_true,
            Bool.false_eq_true, if_false, List.length_cons] at hcount ⊢
          omega

theorem poll_recvs {cq : IbvVirtualCq} (hsend : cq.pendingSendVirtualWcQue_.items = [])
    (hunit : Unit01 cq.pendingRecvVirtualWcQue_.items) (numEntries : ℕ) :
    ∃ wcs cq' ws, cq.loopPollVirtualCqUntil numEntries = .ok (wcs, cq') ∧
      cq'.pendingSendVirtualWcQue_.items = [] ∧
      cq.pendingRecvVirtualWcQue_.items = ws ++ cq'.pendingRecvVirtualWcQue_.items ∧
      wcs.length = ws.length ∧ ∀ w ∈ ws, w.remainingMsgCnt = 0 := by
  have hpoll := IbvVirtualCq.poll_invariant cq (fun s =>
    s.cq.pendingSendVirtualWcQue_.items = [] ∧ ∃ ws,
      cq.pendingRecvVirtualWcQue_.items = ws ++ s.cq.pendingRecvVirtualWcQue_.items ∧
      s.wcs.length = ws.length ∧ ∀ w ∈ ws, w.remainingMsgCnt = 0) ?_ ?_
    ⟨hsend, [], rfl, rfl, by simp⟩ numEntries
  · rcases hpoll with ⟨s, hok, ⟨hempty, ws, hitems, hlen, hzero⟩, _⟩
    exact ⟨s.wcs, s.cq, ws, hok, hempty, hitems, hlen, hzero⟩
  · rintro s ⟨hempty, hrest⟩
    rcases IbvVirtualCq.pollFront_cases ⟨s.cq.pendingSendVirtualWcQue_,
      s.cq.virtualWrIdToVirtualWc_, s.wcs, s.virtualSendCqPollComplete⟩ with
      ⟨hque, _, hwcs⟩ | ⟨w, hitems, _⟩
    · simp only [IbvVirtualCq.pollSend, hque, hwcs]
      exact ⟨hempty, hrest⟩
    · simp only [hempty] at hitems
      cases hitems
  · rintro s ⟨hempty, ws, hitems, hlen, hzero⟩
    rcases IbvVirtualCq.pollFront_cases ⟨s.cq.pendingRecvVirtualWcQue_,
      s.cq.virtualWrIdToVirtualWc_, s.wcs, s.virtualRecvCqPollComplete⟩ with
      ⟨hque, _, hwcs⟩ | ⟨w, hfront, hpos, _, _, hwcs⟩
    · simp only [IbvVirtualCq.pollRecv, hque, hwcs]
      exact ⟨hempty, ws, hitems, hlen, hzero⟩
    · have hmem : w ∈ cq.pendingRecvVirtualWcQue_.items := by
        rw [hitems]
        exact List.mem_append_right _ (by rw [hfront]; exact List.mem_cons_self)
      have hw : w.remainingMsgCnt = 0 := by
        rcases hunit w hmem with h | h
        · exact h
        · rw [h] at hpos
          exact absurd Int.one_pos hpos
      refine ⟨hempty, ws ++ [w], ?_, ?_, ?_⟩
      · rw [hitems, hfront, List.append_assoc]
        rfl
      · simp only [IbvVirtualCq.pollRecv, hwcs, List.length_append, hlen, List.length_singleton]
      · intro x hx
        rcases List.mem_append.mp hx with hx | hx
        · exact hzero x hx
        · rw [List.mem_singleton.mp hx]
          exact hw

end TorchComms.Ibverbx
