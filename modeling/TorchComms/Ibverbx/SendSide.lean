import TorchComms.Ibverbx.InFlight

/-! # Sending: the parts of a message

A virtual send is a number of segments and, in SPRAY mode with immediate data, a notification
at the end. Each part waits in a queue or is in flight; posting a segment moves one part.
-/
namespace TorchComms.Ibverbx

open Foundation

/-! ### Parts that wait -/

def share (id : ℕ) (w : VirtualSendWr) : ℤ := if w.wr.wr_id = id then w.remainingMsgCnt else 0

/-- The parts of a virtual send that wait in a queue. -/
def waiting (id : ℕ) (ws : List VirtualSendWr) : ℤ := (ws.map (share id)).sum

/-- A pending send that can be cut into segments. -/
structure Cuttable (w : VirtualSendWr) : Prop where
  sg : w.wr.sg_list.isSome
  left : 0 < w.remainingMsgCnt
  extra : w.sendExtraNotifyImm → 1 < w.remainingMsgCnt
  opcode : w.wr.opcode = .IBV_WR_RDMA_WRITE ∨ w.wr.opcode = .IBV_WR_RDMA_WRITE_WITH_IMM ∨
    w.wr.opcode = .IBV_WR_RDMA_READ ∨ w.wr.opcode = .IBV_WR_SEND

/-- The segments of the request ask for a completion. -/
def IbvSendWr.Reported (wr : IbvSendWr) : Prop :=
  wr.opcode = .IBV_WR_RDMA_WRITE_WITH_IMM ∨ wr.signaled

/-- A send of which only the notification is left. -/
structure Notifiable (w : VirtualSendWr) : Prop where
  left : w.remainingMsgCnt = 1
  extra : w.sendExtraNotifyImm

section Waiting

variable {id : ℕ} {w : VirtualSendWr} {ws : List VirtualSendWr}

@[simp] theorem waiting_nil (id : ℕ) : waiting id [] = 0 := rfl

@[simp] theorem waiting_cons (id : ℕ) (w : VirtualSendWr) (ws : List VirtualSendWr) :
    waiting id (w :: ws) = share id w + waiting id ws := by
  simp [waiting]

@[simp] theorem waiting_append (id : ℕ) (ws ws' : List VirtualSendWr) :
    waiting id (ws ++ ws') = waiting id ws + waiting id ws' := by
  simp [waiting]

theorem share_nonneg (h : 0 < w.remainingMsgCnt) : 0 ≤ share id w := by
  simp only [share]
  split
  · exact Int.le_of_lt h
  · exact le_rfl

theorem waiting_nonneg (h : ∀ w ∈ ws, 0 < w.remainingMsgCnt) : 0 ≤ waiting id ws :=
  sum_map_nonneg fun w hw => share_nonneg (h w hw)

theorem le_waiting (h : ∀ w ∈ ws, 0 < w.remainingMsgCnt) (hw : w ∈ ws) :
    w.remainingMsgCnt ≤ waiting w.wr.wr_id ws := by
  have hle := le_sum_map (f := share w.wr.wr_id) (fun b hb => share_nonneg (h b hb)) hw
  rw [share, if_pos rfl] at hle
  exact hle

end Waiting

namespace IbvVirtualQp

variable {v v' : IbvVirtualQp} {id i : ℕ} {w : VirtualSendWr} {rest : List VirtualSendWr}
  {k : Option ℕ} {q : IbvQp}

/-- All parts of a virtual send that have not completed. -/
def sendLeft (v : IbvVirtualQp) (id : ℕ) : ℤ :=
  waiting id v.pendingSendVirtualWrQue_ + waiting id v.pendingSendNotifyVirtualWrQue_ +
    inFlight IbvQp.physicalSendWrStatus_ v id

theorem sendLeft_push (v : IbvVirtualQp) (w : VirtualSendWr) (id : ℕ) :
    ({ v with pendingSendVirtualWrQue_ := v.pendingSendVirtualWrQue_ ++ [w] } :
      IbvVirtualQp).sendLeft id = v.sendLeft id + share id w := by
  simp only [sendLeft, waiting_append, waiting_cons, waiting_nil]
  change _ + (share id w + 0) + _ + inFlight IbvQp.physicalSendWrStatus_ v id = _
  omega

/-- The sends whose notification has not been posted, oldest first. -/
def unnotified (v : IbvVirtualQp) : List IbvSendWr :=
  v.pendingSendNotifyVirtualWrQue_.map VirtualSendWr.wr ++
    (v.pendingSendVirtualWrQue_.filter VirtualSendWr.sendExtraNotifyImm).map VirtualSendWr.wr

structure Spreading (v : IbvVirtualQp) : Prop where
  wired : v.Wired
  next : v.nextSendPhysicalQpIdx_ < v.physicalQps_.length
  mirror : ∀ q ∈ v.qps, q.physicalSendWrStatus_ = q.sq.outstanding.map SendWqe.status
  pending : ∀ w ∈ v.pendingSendVirtualWrQue_, Cuttable w
  notifies : ∀ w ∈ v.pendingSendNotifyVirtualWrQue_, Notifiable w

/-- Every segment in flight is reported, and so will be those that wait. -/
structure Signaled (v : IbvVirtualQp) : Prop where
  signaled : ∀ q ∈ v.qps, ∀ x ∈ q.sq.outstanding, x.wr.signaled
  reported : ∀ w ∈ v.pendingSendVirtualWrQue_, w.wr.Reported

structure Sending (v : IbvVirtualQp) : Prop extends Spreading v, Signaled v

/-- A property that posting one segment keeps. -/
structure SegmentInvariant (Inv : IbvVirtualQp → Prop) : Prop where
  next : ∀ u n, Inv u → Inv { u with nextSendPhysicalQpIdx_ := n }
  segment : ∀ u u' i w rest, Spreading u → Inv u → u.pendingSendVirtualWrQue_ = w :: rest →
    i < u.physicalQps_.length → (w.wr.opcode = .IBV_WR_SEND → i = 0) →
    u.postSegment i w rest = .ok u' → Inv u'

/-- What posting any number of segments leaves as it is. -/
structure Moved (v v' : IbvVirtualQp) : Prop where
  left : ∀ id, v'.sendLeft id = v.sendLeft id
  unnotified : v'.unnotified = v.unnotified
  notifyQue : v.pendingSendNotifyVirtualWrQue_ <+: v'.pendingSendNotifyVirtualWrQue_
  notifyQp : v'.notifyQp_ = v.notifyQp_
  recvPart : v'.qps.map IbvQp.recvPart = v.qps.map IbvQp.recvPart
  recvQue : v'.pendingRecvVirtualWrQue_ = v.pendingRecvVirtualWrQue_
  maxMsgCnt : v'.maxMsgCntPerQp_ = v.maxMsgCntPerQp_
  maxMsgSize : v'.maxMsgSize_ = v.maxMsgSize_
  route : v'.qpNumToIdx_ = v.qpNumToIdx_
  scheme : v'.loadBalancingScheme_ = v.loadBalancingScheme_
  keeps : ∀ Inv : IbvVirtualQp → Prop, SegmentInvariant Inv → Inv v → Inv v'

theorem Moved.refl (v : IbvVirtualQp) : Moved v v :=
  ⟨fun _ => rfl, rfl, List.prefix_rfl, rfl, rfl, rfl, rfl, rfl, rfl, rfl, fun _ _ h => h⟩

theorem Moved.trans {v'' : IbvVirtualQp} (h : Moved v v') (h' : Moved v' v'') : Moved v v'' where
  left := fun id => (h'.left id).trans (h.left id)
  unnotified := h'.unnotified.trans h.unnotified
  notifyQue := h.notifyQue.trans h'.notifyQue
  notifyQp := h'.notifyQp.trans h.notifyQp
  recvPart := h'.recvPart.trans h.recvPart
  recvQue := h'.recvQue.trans h.recvQue
  maxMsgCnt := h'.maxMsgCnt.trans h.maxMsgCnt
  maxMsgSize := h'.maxMsgSize.trans h.maxMsgSize
  route := h'.route.trans h.route
  scheme := h'.scheme.trans h.scheme
  keeps := fun Inv hinv hv => h'.keeps Inv hinv (h.keeps Inv hinv hv)

/-! ### Choosing a QP -/

/-- No data QP takes another segment. -/
def Full (v : IbvVirtualQp) : Prop :=
  ∀ q ∈ v.physicalQps_, ¬ v.hasRoom q.physicalSendWrStatus_.length

variable {sq : WorkQueue SendWqe} {n wrId virtualWrId : ℕ} {sg : IbvSge} {next : ℕ}

theorem scanSendQps_spec (v : IbvVirtualQp) (n : ℕ) (hnext : next < v.physicalQps_.length) :
    ∃ o next', v.scanSendQps n next = .ok (o, next') ∧ next' < v.physicalQps_.length ∧
      (∀ i, o = some i → i < v.physicalQps_.length) ∧
      (o = none → ∀ j < n, ∀ q, v.physicalQps_[(next + j) % v.physicalQps_.length]? = some q →
        ¬ v.hasRoom q.physicalSendWrStatus_.length) := by
  induction n generalizing next with
  | zero => exact ⟨none, next, rfl, hnext, by simp, by simp⟩
  | succ n ih =>
    have hpos : 0 < v.physicalQps_.length := Nat.zero_lt_of_lt hnext
    have hq := List.getElem?_eq_getElem hnext
    by_cases hroom : v.hasRoom (v.physicalQps_[next]).physicalSendWrStatus_.length
    · refine ⟨some next, (next + 1) % v.physicalQps_.length, ?_, Nat.mod_lt _ hpos, ?_, by simp⟩
      · simp only [scanSendQps, hq, hroom, if_true]
      · intro i hi
        cases hi
        exact hnext
    · rcases ih (Nat.mod_lt (next + 1) hpos) with ⟨o, next', hs, hlt, hsome, hnone⟩
      refine ⟨o, next', ?_, hlt, hsome, ?_⟩
      · simp only [scanSendQps, hq, hroom, Bool.false_eq_true, if_false, hs]
      · intro ho j hj q hjq
        cases j with
        | zero =>
          rw [Nat.add_zero, Nat.mod_eq_of_lt hnext, hq, Option.some.injEq] at hjq
          rw [← hjq]
          exact hroom
        | succ j =>
          apply hnone ho j (Nat.lt_of_succ_lt_succ hj) q
          rw [← hjq, Nat.mod_add_mod]
          congr 2
          omega

theorem findAvailableSendQp_spec (hnext : v.nextSendPhysicalQpIdx_ < v.physicalQps_.length) :
    ∃ o next', v.findAvailableSendQp = .ok (o, { v with nextSendPhysicalQpIdx_ := next' }) ∧
      next' < v.physicalQps_.length ∧ (∀ i, o = some i → i < v.physicalQps_.length) ∧
      (o = none → v.Full) := by
  have hpos : 0 < v.physicalQps_.length := Nat.zero_lt_of_lt hnext
  by_cases hmax : v.maxMsgCntPerQp_ = -1
  · refine ⟨some v.nextSendPhysicalQpIdx_, (v.nextSendPhysicalQpIdx_ + 1) % v.physicalQps_.length,
      ?_, Nat.mod_lt _ hpos, ?_, by simp⟩
    · simp [findAvailableSendQp, hmax, Nat.ne_of_gt hpos]
    · intro i hi
      cases hi
      exact hnext
  · rcases v.scanSendQps_spec v.physicalQps_.length hnext with ⟨o, next', hs, hlt, hsome, hnone⟩
    refine ⟨o, next', ?_, hlt, hsome, ?_⟩
    · simp [findAvailableSendQp, hmax, hs, Except.map]
    · intro ho q hq
      rcases List.mem_iff_getElem?.mp hq with ⟨i, hi⟩
      rcases List.getElem?_eq_some_iff.mp hi with ⟨hilt, _⟩
      -- every index is met in a full round from `next`
      have hround : (v.nextSendPhysicalQpIdx_ +
          (i + v.physicalQps_.length - v.nextSendPhysicalQpIdx_) % v.physicalQps_.length) %
          v.physicalQps_.length = i := by
        rw [Nat.add_mod_mod, Nat.add_sub_of_le (by omega), Nat.add_mod_right,
          Nat.mod_eq_of_lt hilt]
      exact hnone ho _ (Nat.mod_lt _ hpos) q (by rw [hround]; exact hi)

/-- The transfers that are spread over the data QPs. -/
def IsRdma (o : IbvWrOpcode) : Prop :=
  o = .IBV_WR_RDMA_WRITE ∨ o = .IBV_WR_RDMA_WRITE_WITH_IMM ∨ o = .IBV_WR_RDMA_READ

theorem selectSendQp_spec (hnext : v.nextSendPhysicalQpIdx_ < v.physicalQps_.length)
    (hopcode : w.wr.opcode = .IBV_WR_RDMA_WRITE ∨ w.wr.opcode = .IBV_WR_RDMA_WRITE_WITH_IMM ∨
      w.wr.opcode = .IBV_WR_RDMA_READ ∨ w.wr.opcode = .IBV_WR_SEND)
    (hk : ∀ i, k = some i → i < v.physicalQps_.length) :
    ∃ o next' k', v.selectSendQp k w = .ok (o, { v with nextSendPhysicalQpIdx_ := next' }, k') ∧
      next' < v.physicalQps_.length ∧ (∀ i, o = some i → i < v.physicalQps_.length) ∧
      (∀ i, o = some i → w.wr.opcode = .IBV_WR_SEND → i = 0) ∧ (∀ i, k' = some i → k = some i) ∧
      (o = none → ∃ q ∈ v.physicalQps_, ¬ v.hasRoom q.physicalSendWrStatus_.length) := by
  by_cases hop : IsRdma w.wr.opcode
  · have hnot : w.wr.opcode ≠ .IBV_WR_SEND := by
      rcases hop with h | h | h <;> simp [h]
    cases k with
    | none =>
      rcases findAvailableSendQp_spec hnext with ⟨o, next', hs, hlt, hsome, hnone⟩
      refine ⟨o, next', none, ?_, hlt, hsome, fun _ _ h => absurd h hnot, by simp, fun ho =>
        ⟨_, List.getElem_mem hnext, hnone ho _ (List.getElem_mem hnext)⟩⟩
      rcases hop with h | h | h <;> simp [selectSendQp, h, hs, Except.map]
    | some i =>
      refine ⟨some i, v.nextSendPhysicalQpIdx_, none, ?_, hnext, hk, fun _ _ h => absurd h hnot,
        by simp, by simp⟩
      rcases hop with h | h | h <;> simp [selectSendQp, h]
  · have hsend : w.wr.opcode = .IBV_WR_SEND := by
      rcases hopcode with h | h | h | h
      · exact absurd (Or.inl h) hop
      · exact absurd (Or.inr (Or.inl h)) hop
      · exact absurd (Or.inr (Or.inr h)) hop
      · exact h
    have hpos : 0 < v.physicalQps_.length := Nat.zero_lt_of_lt hnext
    have hq := List.getElem?_eq_getElem hpos
    refine ⟨if v.hasRoom (v.physicalQps_[0]).physicalSendWrStatus_.length then some 0 else none,
      v.nextSendPhysicalQpIdx_, k, ?_, hnext, ?_, ?_, fun _ h => h, ?_⟩
    · simp only [selectSendQp, hsend, hq]
    · intro i hi
      split at hi
      · cases hi
        exact hpos
      · cases hi
    · intro i hi _
      split at hi
      · cases hi
        rfl
      · cases hi
    · intro ho
      split at ho
      · cases ho
      · rename_i hroom
        exact ⟨_, List.getElem_mem hpos, hroom⟩

/-! ### One segment -/

theorem updatePhysicalSendWr_spec (v : IbvVirtualQp) (hw : Cuttable w) :
    ∃ wr sg wrId tracker, v.updatePhysicalSendWrFromVirtualSendWr w = .ok (wr, { v with
        nextPhysicalWrId_ := wrId, dqplbSeqTracker := tracker }) ∧
      wr.sg_list = some sg ∧ (wr.signaled ↔ w.wr.Reported) := by
  rcases Option.isSome_iff_exists.mp hw.sg with ⟨sg, hsg⟩
  have hset : (IBV_SEND_SIGNALED &&& IBV_SEND_SIGNALED != 0) = true := by decide
  rcases hw.opcode with h | h | h | h
  · simp only [updatePhysicalSendWrFromVirtualSendWr, hsg, h]
    exact ⟨_, _, _, _, rfl, rfl, by simp [IbvSendWr.signaled, IbvSendWr.Reported, h]⟩
  · simp only [updatePhysicalSendWrFromVirtualSendWr, hsg, h]
    have hreported : w.wr.Reported := Or.inl h
    by_cases hscheme : v.loadBalancingScheme_ = .DQPLB
    · simp only [hscheme, and_self, if_true]
      exact ⟨_, _, _, _, rfl, rfl, iff_of_true hset hreported⟩
    · have hspray : v.loadBalancingScheme_ = .SPRAY := by
        cases h : v.loadBalancingScheme_ with
        | SPRAY => rfl
        | DQPLB => exact absurd h hscheme
      simp only [hspray, reduceCtorEq, and_self, if_false]
      exact ⟨_, _, _, _, rfl, rfl, iff_of_true hset hreported⟩
  · simp only [updatePhysicalSendWrFromVirtualSendWr, hsg, h]
    exact ⟨_, _, _, _, rfl, rfl, by simp [IbvSendWr.signaled, IbvSendWr.Reported, h]⟩
  · simp only [updatePhysicalSendWrFromVirtualSendWr, hsg, h]
    exact ⟨_, _, _, _, rfl, rfl, by simp [IbvSendWr.signaled, IbvSendWr.Reported, h]⟩

/-- The parts still to be posted, which every round lowers. -/
def weight (ws : List VirtualSendWr) : ℕ := (ws.map fun w => w.remainingMsgCnt.toNat).sum

theorem weight_lt_sendRounds (ws : List VirtualSendWr) : weight ws < sendRounds ws := by
  induction ws with
  | nil => simp [weight, sendRounds]
  | cons w ws ih =>
    simp only [weight, sendRounds, List.map_cons, List.sum_cons] at ih ⊢
    have hmin : w.remainingMsgCnt.toNat ≤ (w.remainingMsgCnt - INT_MIN).toNat := by
      simp only [INT_MIN]
      omega
    omega

theorem advance_spec (v : IbvVirtualQp) (hw : Cuttable w) (hrest : ∀ x ∈ rest, Cuttable x)
    (hnotifies : ∀ x ∈ v.pendingSendNotifyVirtualWrQue_, Notifiable x) (length : ℕ) :
    ∃ ps ns, v.advance w rest length = { v with
        pendingSendVirtualWrQue_ := ps, pendingSendNotifyVirtualWrQue_ := ns } ∧
      (∀ id, waiting id ps + waiting id ns = waiting id (w :: rest) +
        waiting id v.pendingSendNotifyVirtualWrQue_ - if w.wr.wr_id = id then 1 else 0) ∧
      ns.map VirtualSendWr.wr ++ (ps.filter VirtualSendWr.sendExtraNotifyImm).map VirtualSendWr.wr =
        v.pendingSendNotifyVirtualWrQue_.map VirtualSendWr.wr ++
          ((w :: rest).filter VirtualSendWr.sendExtraNotifyImm).map VirtualSendWr.wr ∧
      v.pendingSendNotifyVirtualWrQue_ <+: ns ∧ (∀ x ∈ ps, Cuttable x) ∧
      (∀ x ∈ ns, Notifiable x) ∧ (∀ x ∈ ps, x.wr ∈ (w :: rest).map VirtualSendWr.wr) ∧
      weight ps < weight (w :: rest) := by
  have hleft := hw.left
  by_cases hone : w.remainingMsgCnt - 1 = 0
  · have hextra : w.sendExtraNotifyImm = false := by
      by_contra hne
      have hgt := hw.extra (by simpa using hne)
      omega
    refine ⟨rest, v.pendingSendNotifyVirtualWrQue_, ?_, ?_, ?_, List.prefix_rfl, hrest, hnotifies,
      fun x hx => List.mem_cons_of_mem _ (List.mem_map_of_mem hx), ?_⟩
    · simp [advance, hone]
    · intro id
      simp only [waiting_cons, share]
      split <;> omega
    · simp [hextra]
    · simp only [weight, List.map_cons, List.sum_cons]
      omega
  · by_cases hmove : w.remainingMsgCnt - 1 = 1 ∧ w.sendExtraNotifyImm
    · refine ⟨rest, v.pendingSendNotifyVirtualWrQue_ ++ [{ w with
          offset := i32 (u32 (w.offset + length)), remainingMsgCnt := w.remainingMsgCnt - 1 }],
        ?_, ?_, ?_, List.prefix_append _ _, hrest, ?_,
        fun x hx => List.mem_cons_of_mem _ (List.mem_map_of_mem hx), ?_⟩
      · simp [advance, hmove]
      · intro id
        simp only [waiting_cons, waiting_append, waiting_nil, share]
        split <;> omega
      · simp [hmove.2]
      · intro x hx
        rcases List.mem_append.mp hx with hx | hx
        · exact hnotifies x hx
        · rw [List.mem_singleton.mp hx]
          exact ⟨hmove.1, hmove.2⟩
      · simp only [weight, List.map_cons, List.sum_cons]
        omega
    · refine ⟨{ w with offset := i32 (u32 (w.offset + length)),
                       remainingMsgCnt := w.remainingMsgCnt - 1 } :: rest,
        v.pendingSendNotifyVirtualWrQue_, ?_, ?_, ?_, List.prefix_rfl, ?_, hnotifies, ?_, ?_⟩
      · simp only [advance, hone, hmove, if_false]
      · intro id
        simp only [waiting_cons, share]
        split <;> omega
      · simp only [List.filter_cons]
        split <;> rfl
      · intro x hx
        rcases List.mem_cons.mp hx with rfl | hx
        · refine ⟨hw.sg, ?_, ?_, hw.opcode⟩
          · simp only
            omega
          · intro hextra
            have hgt := hw.extra hextra
            simp only at hextra ⊢
            have hne : w.remainingMsgCnt - 1 ≠ 1 := fun h => hmove ⟨h, hextra⟩
            omega
        · exact hrest x hx
      · intro x hx
        rcases List.mem_cons.mp hx with rfl | hx
        · exact List.mem_cons_self ..
        · exact List.mem_cons_of_mem _ (List.mem_map_of_mem hx)
      · simp only [weight, List.map_cons, List.sum_cons]
        omega

/-- One segment of `w` was posted on the QP `i`. -/
structure Segmented (i : ℕ) (w : VirtualSendWr) (v v' : IbvVirtualQp) : Prop where
  qps : ∃ q wr, v.qp? (some i) = some q ∧ v'.qps = v.qps.set (i + 1) (q.postSend wr w.wr.wr_id) ∧
    (wr.signaled ↔ w.wr.Reported)
  pending : ∀ x ∈ v'.pendingSendVirtualWrQue_, x.wr ∈ v.pendingSendVirtualWrQue_.map VirtualSendWr.wr

theorem postSegment_spec (hs : Spreading v) (hpend : v.pendingSendVirtualWrQue_ = w :: rest)
    (hi : i < v.physicalQps_.length) (hfirst : w.wr.opcode = .IBV_WR_SEND → i = 0) :
    ∃ v', v.postSegment i w rest = .ok v' ∧ Spreading v' ∧ Moved v v' ∧ Segmented i w v v' ∧
      weight v'.pendingSendVirtualWrQue_ < weight v.pendingSendVirtualWrQue_ := by
  have hw : Cuttable w := hs.pending w (by simp [hpend])
  have hrest : ∀ x ∈ rest, Cuttable x := fun x hx => hs.pending x (by simp [hpend, hx])
  rcases v.updatePhysicalSendWr_spec hw with ⟨wr, sg, wrId, tracker, hupd, hsg, hsig⟩
  have hq := List.getElem?_eq_getElem hi
  generalize v.physicalQps_[i] = q at hq
  have hmin : w.remainingMsgCnt ≠ INT_MIN := by
    have hleft := hw.left
    simp only [INT_MIN]
    omega
  have hset : v.qp? (some i) = some q := hq
  rcases advance_spec (({ v with nextPhysicalWrId_ := wrId, dqplbSeqTracker := tracker } :
      IbvVirtualQp).setQp (some i) (q.postSend wr w.wr.wr_id)) hw hrest hs.notifies sg.length with
    ⟨ps, ns, hadv, hwait, hunn, hpre, hps, hns, hold, hlt⟩
  have hok : v.postSegment i w rest = .ok ({ (v.setQp (some i) (q.postSend wr w.wr.wr_id)) with
      nextPhysicalWrId_ := wrId, dqplbSeqTracker := tracker,
      pendingSendVirtualWrQue_ := ps, pendingSendNotifyVirtualWrQue_ := ns }) := by
    simp only [postSegment, hupd, bind, Except.bind, hq, hsg, hmin, if_false]
    rw [hadv]
    rfl
  have hqps : (v.setQp (some i) (q.postSend wr w.wr.wr_id)).qps =
      v.qps.set (i + 1) (q.postSend wr w.wr.wr_id) := qps_setQp v (some i) _
  refine ⟨_, hok, ?_, ?_, ⟨⟨q, wr, hset, hqps, hsig⟩, ?_⟩, ?_⟩
  · exact
      { wired := hs.wired.of_eq rfl (map_setQp _ hset rfl)
        next := by
          simp only [setQp, List.length_set]
          exact hs.next
        mirror := by
          intro p hp
          rcases mem_of_mem_set (hqps ▸ hp) with rfl | hp
          · have hmirror := hs.mirror q (mem_qps hset)
            simp [IbvQp.postSend, hmirror, SendWqe.status]
          · exact hs.mirror p hp
        pending := hps
        notifies := hns }
  · exact
      { left := by
          intro id
          have hfly := inFlight_setQp IbvQp.physicalSendWrStatus_ hset (q.postSend wr w.wr.wr_id) id
          have hparts := hwait id
          rw [statusCount_postSend] at hfly
          change waiting id ps + waiting id ns +
            inFlight IbvQp.physicalSendWrStatus_ (v.setQp (some i) _) id = v.sendLeft id
          simp only [sendLeft, hpend]
          change _ = _ + waiting id v.pendingSendNotifyVirtualWrQue_ - _ at hparts
          rw [hfly]
          omega
        unnotified := by
          simp only [unnotified, hpend]
          exact hunn
        notifyQue := hpre
        notifyQp := rfl
        recvPart := map_setQp _ hset rfl
        recvQue := rfl
        maxMsgCnt := rfl
        maxMsgSize := rfl
        route := rfl
        scheme := rfl
        keeps := fun Inv hinv hv => hinv.segment v _ i w rest hs hv hpend hi hfirst hok }
  · rw [hpend]
    exact hold
  · rw [hpend]
    exact hlt

theorem segmentInvariant_signaled : SegmentInvariant Signaled where
  next u n h := ⟨h.signaled, h.reported⟩
  segment u u' i w rest hs h hpend hi hfirst hpost := by
    rcases postSegment_spec hs hpend hi hfirst with ⟨v', hpost', _, _, ⟨⟨q, wr, hq, hqps, hsig⟩, hold⟩, _⟩
    rw [hpost, Except.ok.injEq] at hpost'
    subst hpost'
    have hw : w.wr.Reported := h.reported w (by simp [hpend])
    constructor
    · intro p hp x hx
      rcases mem_of_mem_set (hqps ▸ hp) with rfl | hp
      · simp only [IbvQp.postSend, WorkQueue.outstanding_post, List.mem_append,
          List.mem_singleton] at hx
        rcases hx with hx | rfl
        · exact h.signaled q (mem_qps hq) x hx
        · exact hsig.mpr hw
      · exact h.signaled p hp x hx
    · intro x hx
      rcases List.mem_map.mp (hold x hx) with ⟨y, hy, hwr⟩
      rw [← hwr]
      exact h.reported y hy

theorem Moved.signaled (h : Moved v v') (hsig : v.Signaled) : v'.Signaled :=
  h.keeps _ segmentInvariant_signaled hsig

/-! ### The loop -/

/-- The next segment finds no QP. -/
def Stopped (v : IbvVirtualQp) : Prop :=
  v.pendingSendVirtualWrQue_ ≠ [] →
    ∃ q ∈ v.physicalQps_, ¬ v.hasRoom q.physicalSendWrStatus_.length

theorem Moved.length (h : Moved v v') : v'.physicalQps_.length = v.physicalQps_.length := by
  have hlen := congrArg List.length h.recvPart
  simpa [qps] using hlen

theorem Spreading.next_index (hs : Spreading v) (hnext : next < v.physicalQps_.length) :
    Spreading { v with nextSendPhysicalQpIdx_ := next } ∧
      Moved v { v with nextSendPhysicalQpIdx_ := next } := by
  constructor
  · exact
      { wired := hs.wired.of_eq rfl rfl
        next := hnext
        __ := hs }
  · exact ⟨fun _ => rfl, rfl, List.prefix_rfl, rfl, rfl, rfl, rfl, rfl, rfl, rfl,
      fun _ hinv hv => hinv.next v next hv⟩

theorem mapPendingSendRound_cons (hpend : v.pendingSendVirtualWrQue_ = w :: rest) (k : Option ℕ) :
    mapPendingSendRound (v, k) = (do
      let (availableQpIdx, v, qpIdx) ← v.selectSendQp k w
      match availableQpIdx with
      | none => .ok (false, v, qpIdx)
      | some i => do
        let v ← v.postSegment i w rest
        .ok (true, v, qpIdx)) := by
  unfold mapPendingSendRound
  split
  · rename_i hnil
    rw [hpend] at hnil
    cases hnil
  · rename_i w' rest' hcons
    rw [hpend] at hcons
    cases hcons
    rfl

theorem mapPendingSendRound_spec (hs : Spreading v)
    (hk : ∀ i, k = some i → i < v.physicalQps_.length) :
    ∃ c v' k', mapPendingSendRound (v, k) = .ok (c, v', k') ∧ Spreading v' ∧ Moved v v' ∧
      (∀ i, k' = some i → i < v'.physicalQps_.length) ∧
      (c = true → weight v'.pendingSendVirtualWrQue_ < weight v.pendingSendVirtualWrQue_) ∧
      (c = false → Stopped v') := by
  cases hpend : v.pendingSendVirtualWrQue_ with
  | nil =>
    refine ⟨false, v, k, ?_, hs, Moved.refl v, hk, by simp, ?_⟩
    · simp only [mapPendingSendRound, hpend]
    · exact fun _ hne => absurd hpend hne
  | cons w rest =>
    have hw : Cuttable w := hs.pending w (by simp [hpend])
    rcases selectSendQp_spec hs.next hw.opcode hk with
      ⟨o, next', k', hsel, hnext, hsome, hfirst, hk', hfull⟩
    rcases hs.next_index hnext with ⟨hs', hmoved⟩
    cases o with
    | none =>
      refine ⟨false, _, k', ?_, hs', hmoved, fun i hi => hk i (hk' i hi), by simp, ?_⟩
      · rw [mapPendingSendRound_cons hpend, hsel]
        rfl
      · exact fun _ _ => hfull rfl
    | some i =>
      rcases postSegment_spec hs' hpend (hsome i rfl) (hfirst i rfl) with ⟨v', hpost, hsend, hmoved', _, hlt⟩
      refine ⟨true, v', k', ?_, hsend, hmoved.trans hmoved', ?_, fun _ => ?_, by simp⟩
      · rw [mapPendingSendRound_cons hpend, hsel]
        simp only [bind, Except.bind, hpost]
      · intro j hj
        rw [(hmoved.trans hmoved').length]
        exact hk j (hk' j hj)
      · rw [← hpend]
        exact hlt

/-- `mapPendingSendQueToPhysicalQp` ends, moves parts from the queue to the QPs and stops only
when the queue is empty or the QPs are full. -/
theorem mapPendingSend_spec (hs : Spreading v) (hk : ∀ i, k = some i → i < v.physicalQps_.length) :
    ∃ v', v.mapPendingSendQueToPhysicalQp k = .ok v' ∧ Spreading v' ∧ Moved v v' ∧ Stopped v' := by
  have hround : ∀ s : IbvVirtualQp × Option ℕ,
      (Spreading s.1 ∧ Moved v s.1 ∧ ∀ i, s.2 = some i → i < s.1.physicalQps_.length) →
      ∃ c s', mapPendingSendRound s = .ok (c, s') ∧
        (c = true → (Spreading s'.1 ∧ Moved v s'.1 ∧
          ∀ i, s'.2 = some i → i < s'.1.physicalQps_.length) ∧
          weight s'.1.pendingSendVirtualWrQue_ < weight s.1.pendingSendVirtualWrQue_) ∧
        (c = false → Spreading s'.1 ∧ Moved v s'.1 ∧ Stopped s'.1) := by
    rintro ⟨u, l⟩ ⟨hu, hmoved, hl⟩
    rcases mapPendingSendRound_spec hu hl with ⟨c, u', l', hround, hu', hmoved', hl', hgo, hstop⟩
    exact ⟨c, (u', l'), hround, fun hc => ⟨⟨hu', hmoved.trans hmoved', hl'⟩, hgo hc⟩,
      fun hc => ⟨hu', hmoved.trans hmoved', hstop hc⟩⟩
  have hloop : ∃ s', loop .diverged mapPendingSendRound
      (sendRounds v.pendingSendVirtualWrQue_) (v, k) = .ok s' ∧
      Spreading s'.1 ∧ Moved v s'.1 ∧ Stopped s'.1 :=
    loop_invariant _ _ (fun s => weight s.1.pendingSendVirtualWrQue_) hround
      ⟨hs, Moved.refl v, hk⟩ (weight_lt_sendRounds _)
  rcases hloop with ⟨s', hok, hpost⟩
  refine ⟨s'.1, ?_, hpost⟩
  simp only [mapPendingSendQueToPhysicalQp, hok, Except.map]

/-! ### Posting -/

/-- The number of segments of a message. -/
def segments (maxMsgSize : ℤ) (length : ℕ) : ℕ :=
  (length + maxMsgSize.toNat - 1) / maxMsgSize.toNat

/-- The arithmetic of the source counts the segments of a message of this length: its sums do
not wrap, and the count is an `int`. -/
structure Segmentable (maxMsgSize : ℤ) (length : ℕ) : Prop where
  nonempty : 1 ≤ length
  sum : length + maxMsgSize ≤ 2 ^ 32
  count : segments maxMsgSize length ≤ INT_MAX

/-- A send that can be cut: supported, and with a number of parts that is an `int`. -/
structure Divisible (maxMsgSize : ℤ) (wr : IbvSendWr) : Prop where
  num_sge : wr.num_sge = 1
  sg : ∃ sg ∈ wr.sg_list, Segmentable maxMsgSize sg.length ∧
    (wr.opcode = .IBV_WR_RDMA_WRITE_WITH_IMM → segments maxMsgSize sg.length < INT_MAX)
  opcode : wr.opcode = .IBV_WR_RDMA_WRITE ∨ wr.opcode = .IBV_WR_RDMA_WRITE_WITH_IMM ∨
    wr.opcode = .IBV_WR_RDMA_READ ∨ wr.opcode = .IBV_WR_SEND

/-- A send that can be cut: supported, signaled or with immediate data, and with a number of
parts that is an `int`. -/
structure Sendable (maxMsgSize : ℤ) (wr : IbvSendWr) : Prop where
  num_sge : wr.num_sge = 1
  sg : ∃ sg ∈ wr.sg_list, Segmentable maxMsgSize sg.length ∧
    (wr.opcode = .IBV_WR_RDMA_WRITE_WITH_IMM → segments maxMsgSize sg.length < INT_MAX)
  opcode : wr.opcode = .IBV_WR_RDMA_WRITE ∨ wr.opcode = .IBV_WR_RDMA_WRITE_WITH_IMM ∨
    wr.opcode = .IBV_WR_RDMA_READ ∨ wr.opcode = .IBV_WR_SEND
  signaled : wr.opcode = .IBV_WR_RDMA_WRITE_WITH_IMM ∨ wr.signaled

instance (maxMsgSize : ℤ) (length : ℕ) : Decidable (Segmentable maxMsgSize length) :=
  decidable_of_iff (1 ≤ length ∧ length + maxMsgSize ≤ 2 ^ 32 ∧
    segments maxMsgSize length ≤ INT_MAX) ⟨fun h => ⟨h.1, h.2.1, h.2.2⟩, fun h => ⟨h.1, h.2, h.3⟩⟩

instance (maxMsgSize : ℤ) (wr : IbvSendWr) : Decidable (Sendable maxMsgSize wr) :=
  decidable_of_iff (wr.num_sge = 1 ∧ (∃ sg ∈ wr.sg_list, Segmentable maxMsgSize sg.length ∧
      (wr.opcode = .IBV_WR_RDMA_WRITE_WITH_IMM → segments maxMsgSize sg.length < INT_MAX)) ∧
    (wr.opcode = .IBV_WR_RDMA_WRITE ∨ wr.opcode = .IBV_WR_RDMA_WRITE_WITH_IMM ∨
      wr.opcode = .IBV_WR_RDMA_READ ∨ wr.opcode = .IBV_WR_SEND) ∧
    (wr.opcode = .IBV_WR_RDMA_WRITE_WITH_IMM ∨ wr.signaled))
    ⟨fun h => ⟨h.1, h.2.1, h.2.2.1, h.2.2.2⟩, fun h => ⟨h.1, h.2, h.3, h.4⟩⟩

variable {wr : IbvSendWr} {xs : List SendWqe} {x : SendWqe}
  {sts : List PhysicalWrStatus} {maxMsgSize : ℤ}

theorem Sendable.divisible (h : Sendable maxMsgSize wr) :
    Divisible maxMsgSize wr := ⟨h.num_sge, h.sg, h.opcode⟩

theorem Divisible.ofWr (h : Divisible maxMsgSize wr) (n : ℤ)
    (extra : Bool) : (VirtualSendWr.ofWr wr n extra).wr = wr := by
  rcases h.sg with ⟨sg, hsg, _⟩
  rw [Option.mem_def] at hsg
  simp [VirtualSendWr.ofWr, hsg, h.num_sge]

theorem u32_of_lt {n : ℕ} (h : n < 2 ^ 32) : u32 n = n := by
  simp only [u32]
  omega

theorem i32_of_lt {n : ℕ} (h : n < 2 ^ 31) : i32 n = n := by
  apply Int.bmod_eq_of_le_mul_two
  · omega
  · omega

theorem segmentCount_spec {length : ℕ} (hmax : 1 ≤ maxMsgSize) (h : Segmentable maxMsgSize length) :
    segmentCount length maxMsgSize = .ok (segments maxMsgSize length : ℕ) ∧
      1 ≤ segments maxMsgSize length := by
  rcases Int.eq_ofNat_of_zero_le (by omega : 0 ≤ maxMsgSize) with ⟨m, rfl⟩
  have hlen := h.nonempty
  have hle := h.sum
  have hm : 1 ≤ m := by omega
  have hu : u32 (m : ℤ) = m := u32_of_lt (by omega)
  have hsum : u32 (length + (m : ℤ) - 1) = length + m - 1 := by
    rw [show (length : ℤ) + m - 1 = ((length + m - 1 : ℕ) : ℤ) by omega]
    exact u32_of_lt (by omega)
  have hcount := h.count
  simp only [segments, Int.toNat_natCast, INT_MAX] at hcount ⊢
  refine ⟨?_, ?_⟩
  · simp only [segmentCount, hu, hsum, Nat.ne_of_gt hm, if_false]
    rw [i32_of_lt (by omega)]
  · rw [Nat.le_div_iff_mul_le hm]
    omega

/-- A post succeeds where going through the queue does. -/
theorem postSend_of_map {c : ℕ} {extra : Bool} (hnum : wr.num_sge = 1)
    (hopcode : wr.opcode = .IBV_WR_RDMA_WRITE ∨ wr.opcode = .IBV_WR_RDMA_WRITE_WITH_IMM ∨
      wr.opcode = .IBV_WR_RDMA_READ ∨ wr.opcode = .IBV_WR_SEND)
    (hsg : wr.sg_list = some sg) (hcount : segmentCount sg.length v.maxMsgSize_ = .ok c)
    (hextra : decide (wr.opcode = .IBV_WR_RDMA_WRITE_WITH_IMM ∧
      v.loadBalancingScheme_ = .SPRAY) = extra) (hfit : ¬ (extra = true ∧ (c : ℤ) = INT_MAX))
    (hmap : { v with pendingSendVirtualWrQue_ := v.pendingSendVirtualWrQue_ ++
      [VirtualSendWr.ofWr wr (c + if extra then 1 else 0) extra] }.mapPendingSendQueToPhysicalQp none =
        .ok v') :
    v.postSend wr = .ok (.SEND v'.virtualQpNum_ (c + if extra then 1 else 0) wr extra, v') := by
  have hone : ¬ 1 < wr.num_sge := by
    rw [hnum]
    decide
  have hop : ¬ (wr.opcode = .IBV_WR_SEND_WITH_IMM ∨ wr.opcode = .IBV_WR_ATOMIC_CMP_AND_SWP ∨
      wr.opcode = .IBV_WR_ATOMIC_FETCH_AND_ADD) := by
    rcases hopcode with h | h | h | h <;> simp [h]
  have hparts : (if extra = true then (c : ℤ) + 1 else c) = c + if extra = true then 1 else 0 := by
    split
    · rfl
    · exact (Int.add_zero _).symm
  simp only [IbvVirtualQp.postSend, hone, hop, if_false, hsg, hextra, hcount, bind, Except.bind,
    hfit, hparts, hmap]

/-- A request whose parts are an `int` is posted. -/
theorem Spreading.postParts (hs : Spreading v) (hmax : 1 ≤ v.maxMsgSize_) (hnum : wr.num_sge = 1)
    (hopcode : wr.opcode = .IBV_WR_RDMA_WRITE ∨ wr.opcode = .IBV_WR_RDMA_WRITE_WITH_IMM ∨
      wr.opcode = .IBV_WR_RDMA_READ ∨ wr.opcode = .IBV_WR_SEND)
    (hsg : wr.sg_list = some sg) (hlen : Segmentable v.maxMsgSize_ sg.length)
    (hfit : wr.opcode = .IBV_WR_RDMA_WRITE_WITH_IMM ∧ v.loadBalancingScheme_ = .SPRAY →
      segments v.maxMsgSize_ sg.length < INT_MAX) :
    ∃ n extra v', v.postSend wr = .ok (.SEND v'.virtualQpNum_ n wr extra, v') ∧ 0 < n ∧
      (∀ sg ∈ wr.sg_list, n = segments v.maxMsgSize_ sg.length + if extra then 1 else 0) ∧
      (extra = true → 1 < n) ∧
      (extra = true ↔ wr.opcode = .IBV_WR_RDMA_WRITE_WITH_IMM ∧ v.loadBalancingScheme_ = .SPRAY) ∧
      Spreading v' ∧ Moved { v with pendingSendVirtualWrQue_ :=
        v.pendingSendVirtualWrQue_ ++ [VirtualSendWr.ofWr wr n extra] } v' ∧ Stopped v' := by
  rcases segmentCount_spec hmax hlen with ⟨hcount, hpos⟩
  generalize hextra : decide (wr.opcode = .IBV_WR_RDMA_WRITE_WITH_IMM ∧
    v.loadBalancingScheme_ = .SPRAY) = extra
  have hparts : ∀ sg' ∈ wr.sg_list, ((segments v.maxMsgSize_ sg.length : ℕ) : ℤ) +
      (if extra then 1 else 0) = segments v.maxMsgSize_ sg'.length + if extra then 1 else 0 := by
    intro sg' hsg'
    rw [hsg, Option.mem_some_iff] at hsg'
    rw [hsg']
  generalize segments v.maxMsgSize_ sg.length = c at hcount hpos hfit hparts
  have hcopy : (VirtualSendWr.ofWr wr (c + if extra then 1 else 0) extra).wr = wr := by
    simp [VirtualSendWr.ofWr, hsg, hnum]
  have hadd : Spreading { v with pendingSendVirtualWrQue_ := v.pendingSendVirtualWrQue_ ++
      [VirtualSendWr.ofWr wr (c + if extra then 1 else 0) extra] } :=
    { wired := hs.wired.of_eq rfl rfl
      __ := hs
      pending := by
        intro x hx
        rcases List.mem_append.mp hx with hx | hx
        · exact hs.pending x hx
        · rw [List.mem_singleton.mp hx]
          refine ⟨by simp [hcopy, hsg], ?_, ?_, by simpa only [hcopy] using hopcode⟩
          · change 0 < (c : ℤ) + if extra then 1 else 0
            split <;> omega
          · intro hone
            change 1 < (c : ℤ) + if extra then 1 else 0
            rw [if_pos (show extra = true from hone)]
            omega }
  rcases mapPendingSend_spec (k := none) hadd (by simp) with ⟨v', hmap, hs', hmoved, hstop⟩
  refine ⟨_, extra, v', postSend_of_map hnum hopcode hsg hcount hextra ?_ hmap, ?_, hparts, ?_, ?_,
    hs', hmoved, hstop⟩
  · rintro ⟨hone, hmost⟩
    rw [hone, decide_eq_true_iff] at hextra
    have hlt := hfit hextra
    omega
  · split <;> omega
  · intro hone
    rw [if_pos hone]
    omega
  · rw [← hextra, decide_eq_true_iff]

theorem Spreading.postSend (hs : Spreading v) (hmax : 1 ≤ v.maxMsgSize_)
    (hwr : Divisible v.maxMsgSize_ wr) :
    ∃ n extra v', v.postSend wr = .ok (.SEND v'.virtualQpNum_ n wr extra, v') ∧ 0 < n ∧
      (∀ sg ∈ wr.sg_list, n = segments v.maxMsgSize_ sg.length + if extra then 1 else 0) ∧
      (extra = true → 1 < n) ∧
      (extra = true ↔ wr.opcode = .IBV_WR_RDMA_WRITE_WITH_IMM ∧ v.loadBalancingScheme_ = .SPRAY) ∧
      Spreading v' ∧ Moved { v with pendingSendVirtualWrQue_ :=
        v.pendingSendVirtualWrQue_ ++ [VirtualSendWr.ofWr wr n extra] } v' ∧ Stopped v' := by
  rcases hwr.sg with ⟨sg, hsg, hlen, himm⟩
  exact hs.postParts hmax hwr.num_sge hwr.opcode hsg hlen fun h => himm h.1

/-! ### Completing -/

/-- The QP after the completion of its oldest send. -/
def retireSend (q : IbvQp) (sq : WorkQueue SendWqe) (sts : List PhysicalWrStatus) : IbvQp :=
  { q with sq := sq, physicalSendWrStatus_ := sts }

theorem Spreading.retire (hs : Spreading v) (hq : v.qp? k = some q)
    (hout : q.sq.outstanding = x :: xs) (hsq : sq.outstanding = xs) :
    Spreading (v.setQp k (retireSend q sq (xs.map SendWqe.status))) ∧
      ∀ id, (v.setQp k (retireSend q sq (xs.map SendWqe.status))).sendLeft id =
        v.sendLeft id - if x.virtualWrId = id then 1 else 0 := by
  have hlen : ∀ q', (v.setQp k q').physicalQps_.length = v.physicalQps_.length := by
    intro q'
    cases k <;> simp [setQp]
  have hfield : ∀ q', (v.setQp k q').nextSendPhysicalQpIdx_ = v.nextSendPhysicalQpIdx_ ∧
      (v.setQp k q').pendingSendVirtualWrQue_ = v.pendingSendVirtualWrQue_ ∧
      (v.setQp k q').pendingSendNotifyVirtualWrQue_ = v.pendingSendNotifyVirtualWrQue_ ∧
      (v.setQp k q').qpNumToIdx_ = v.qpNumToIdx_ := by
    intro q'
    cases k <;> exact ⟨rfl, rfl, rfl, rfl⟩
  rcases hfield (retireSend q sq (xs.map SendWqe.status)) with ⟨hnext, hpend, hnot, hmap⟩
  have hqs := qps_setQp v k (retireSend q sq (xs.map SendWqe.status))
  have hmirror := hs.mirror q (mem_qps hq)
  rw [hout] at hmirror
  constructor
  · exact
      { wired := hs.wired.of_eq hmap (map_setQp _ hq rfl)
        next := by
          rw [hnext, hlen]
          exact hs.next
        mirror := by
          intro p hp
          rcases mem_of_mem_set (hqs ▸ hp) with rfl | hp
          · rw [retireSend, hsq]
          · exact hs.mirror p hp
        pending := by
          rw [hpend]
          exact hs.pending
        notifies := by
          rw [hnot]
          exact hs.notifies }
  · intro id
    have hfly := inFlight_setQp IbvQp.physicalSendWrStatus_ hq
      (retireSend q sq (xs.map SendWqe.status)) id
    simp only [hmirror, List.map_cons, statusCount_cons, retireSend, SendWqe.status] at hfly
    simp only [sendLeft, hpend, hnot]
    simp only [retireSend]
    omega

theorem processRequest_send_mismatch {n wrId : ℕ} {st : PhysicalWrStatus}
    (hidx : v.idxOfQpNum n = .ok k) (hq : v.qp? k = some q)
    (hst : q.physicalSendWrStatus_ = st :: sts) (hne : st.physicalWrId ≠ wrId) :
    v.processRequest ⟨.SEND, wrId, n, 0⟩ =
      .error (.error (mismatchError "physicalSendWrStatus" st.physicalWrId wrId)) := by
  simp only [processRequest, hidx, bind, Except.bind, hq, processSend, hst, hne, ne_eq,
    not_false_eq_true, if_true]

theorem processRequest_send_notify
    (hidx : v.idxOfQpNum n = .ok none) (hq : v.qp? none = some q)
    (hst : q.physicalSendWrStatus_ = ⟨wrId, virtualWrId⟩ :: sts) :
    v.processRequest ⟨.SEND, wrId, n, 0⟩ = .ok (⟨virtualWrId, false, 0⟩,
      v.setQp none { q with physicalSendWrStatus_ := sts }) := by
  simp only [processRequest, hidx, bind, Except.bind, hq, processSend, hst, ne_eq,
    not_true_eq_false, if_false]

theorem processRequest_send_data
    (hidx : v.idxOfQpNum n = .ok (some i)) (hq : v.qp? (some i) = some q)
    (hst : q.physicalSendWrStatus_ = ⟨wrId, virtualWrId⟩ :: sts) (hmap : (v.setQp (some i) { q with
      physicalSendWrStatus_ := sts }).mapPendingSendQueToPhysicalQp (some i) = .ok v') :
    v.processRequest ⟨.SEND, wrId, n, 0⟩ = .ok (⟨virtualWrId, false, 0⟩, v') := by
  simp only [processRequest, hidx, bind, Except.bind, hq, processSend, hst, ne_eq,
    not_true_eq_false, if_false]
  rw [hmap]

theorem Signaled.retire (h : v.Signaled) (hq : v.qp? k = some q)
    (hout : q.sq.outstanding = x :: xs) (hsq : sq.outstanding = xs)
    (sts : List PhysicalWrStatus) : (v.setQp k (retireSend q sq sts)).Signaled where
  signaled p hp y hy := by
    rcases mem_of_mem_set (qps_setQp v k (retireSend q sq sts) ▸ hp) with rfl | hp
    · rw [retireSend, hsq] at hy
      exact h.signaled q (mem_qps hq) y (by simp [hout, hy])
    · exact h.signaled p hp y hy
  reported := by
    have hpend : (v.setQp k (retireSend q sq sts)).pendingSendVirtualWrQue_ =
        v.pendingSendVirtualWrQue_ := by
      cases k <;> rfl
    rw [hpend]
    exact h.reported

theorem Signaled.push (h : v.Signaled) {x : VirtualSendWr} (hx : x.wr.Reported) :
    ({ v with pendingSendVirtualWrQue_ := v.pendingSendVirtualWrQue_ ++ [x] } :
      IbvVirtualQp).Signaled where
  signaled := h.signaled
  reported y hy := by
    rcases List.mem_append.mp hy with hy | hy
    · exact h.reported y hy
    · rw [List.mem_singleton.mp hy]
      exact hx

theorem Spreading.completeSend (hs : Spreading v) (hq : v.qp? k = some q)
    (hout : q.sq.outstanding = x :: xs) (hsig : x.wr.signaled) :
    ∃ sq v', q.completeSend = some (x, { q with sq := sq }) ∧ sq.posted = q.sq.posted ∧
      sq.outstanding = xs ∧
      (v.setQp k { q with sq := sq }).processRequest ⟨.SEND, x.wr.wr_id, q.qp_num, 0⟩ =
        .ok (⟨x.virtualWrId, false, 0⟩, v') ∧
      Spreading v' ∧ Moved (v.setQp k (retireSend q sq (xs.map SendWqe.status))) v' ∧
      (∀ id, v'.sendLeft id = v.sendLeft id - if x.virtualWrId = id then 1 else 0) ∧
      (Stopped v → Stopped v') := by
  rcases WorkQueue.completeNext_of_front (fun w => w.wr.signaled) hout hsig with ⟨sq, hcomplete, hsq, hposted, _⟩
  rcases hs.retire hq hout hsq with ⟨hs', hleft⟩
  have hmirror := hs.mirror q (mem_qps hq)
  rw [hout, List.map_cons] at hmirror
  have hwired : (v.setQp k { q with sq := sq }).Wired := by
    apply hs.wired.of_eq
    · cases k <;> rfl
    · exact map_setQp _ hq rfl
  have hget : (v.setQp k { q with sq := sq }).qp? k = some { q with sq := sq } := by
    rw [qp?_setQp hq, if_pos rfl]
  have hidx := hwired.index k _ hget
  have hretire : (v.setQp k { q with sq := sq }).setQp k { q with
      sq := sq, physicalSendWrStatus_ := xs.map SendWqe.status } =
        v.setQp k (retireSend q sq (xs.map SendWqe.status)) := setQp_setQp v k _ _
  have hcomp : q.completeSend = some (x, { q with sq := sq }) := by
    simp only [IbvQp.completeSend, hcomplete, Option.map_some]
  have hst : ({ q with sq := sq } : IbvQp).physicalSendWrStatus_ =
      ⟨x.wr.wr_id, x.virtualWrId⟩ :: xs.map SendWqe.status := hmirror
  cases k with
  | none =>
    have hproc := processRequest_send_notify hidx hget hst
    exact ⟨sq, _, hcomp, hposted, hsq, hproc, hs', Moved.refl _, hleft, fun h => h⟩
  | some i =>
    have hlt : ∀ j, some i = some j → j < (v.setQp (some i)
        (retireSend q sq (xs.map SendWqe.status))).physicalQps_.length := by
      intro j hj
      cases hj
      simp only [setQp, List.length_set]
      exact (List.getElem?_eq_some_iff.mp hq).1
    rcases mapPendingSend_spec hs' hlt with ⟨v', hmap, hs'', hmoved, hstop⟩
    have hproc := processRequest_send_data hidx hget hst (by rw [hretire]; exact hmap)
    refine ⟨sq, v', hcomp, hposted, hsq, hproc, hs'', hmoved, ?_, fun _ => hstop⟩
    intro id
    rw [hmoved.left, hleft]

/-- The QP after its notification was posted. -/
theorem Spreading.postSendNotifyImm (hs : Spreading v) {ws : List VirtualSendWr}
    (hnot : v.pendingSendNotifyVirtualWrQue_ = w :: ws) :
    ∃ wr v', v.postSendNotifyImm = .ok v' ∧
      v'.notifyQp_ = v.notifyQp_.postSend wr w.wr.wr_id ∧ wr.imm_data = w.wr.imm_data ∧
      wr.remote_addr = w.wr.remote_addr ∧ wr.rkey = w.wr.rkey ∧
      wr.opcode = .IBV_WR_RDMA_WRITE_WITH_IMM ∧ wr.signaled ∧ Spreading v' ∧
      (∀ id, v'.sendLeft id = v.sendLeft id) ∧ v.unnotified = w.wr :: v'.unnotified ∧
      v'.physicalQps_ = v.physicalQps_ ∧
      v'.pendingSendVirtualWrQue_ = v.pendingSendVirtualWrQue_ ∧
      v'.pendingSendNotifyVirtualWrQue_ = ws ∧
      v'.pendingRecvVirtualWrQue_ = v.pendingRecvVirtualWrQue_ ∧
      v'.maxMsgCntPerQp_ = v.maxMsgCntPerQp_ ∧ v'.maxMsgSize_ = v.maxMsgSize_ ∧
      v'.loadBalancingScheme_ = v.loadBalancingScheme_ := by
  have hnotify := hs.notifies w (by simp [hnot])
  have hq : v.qp? none = some v.notifyQp_ := rfl
  have hset : (IBV_SEND_SIGNALED &&& IBV_SEND_SIGNALED != 0) = true := by decide
  simp only [IbvVirtualQp.postSendNotifyImm, hnot]
  refine ⟨_, _, rfl, rfl, rfl, rfl, rfl, rfl, hset, ?_, ?_, ?_, rfl, rfl, rfl, rfl, rfl, rfl, rfl⟩
  · exact
      { wired := hs.wired.of_eq rfl rfl
        __ := hs
        mirror := by
          intro p hp
          rcases List.mem_cons.mp hp with rfl | hp
          · have hmirror := hs.mirror _ (mem_qps hq)
            simp [IbvQp.postSend, hmirror, SendWqe.status]
          · exact hs.mirror p (List.mem_cons_of_mem _ hp)
        notifies := fun x hx => hs.notifies x (by simp [hnot, hx]) }
  · intro id
    have hfly := inFlight_setQp IbvQp.physicalSendWrStatus_ hq (v.notifyQp_.postSend
      { wr_id := v.nextPhysicalWrId_
        sg_list := some ⟨0, 0, 0⟩
        num_sge := 0
        opcode := .IBV_WR_RDMA_WRITE_WITH_IMM
        send_flags := IBV_SEND_SIGNALED
        imm_data := w.wr.imm_data
        remote_addr := w.wr.remote_addr
        rkey := w.wr.rkey } w.wr.wr_id) id
    rw [statusCount_postSend] at hfly
    simp only [sendLeft, hnot, waiting_cons, share, hnotify.left]
    change _ + inFlight IbvQp.physicalSendWrStatus_ (v.setQp none _) id = _
    rw [hfly]
    omega
  · simp [unnotified, hnot]

/-! ### Signaled sends -/

theorem Sending.moved (h : Moved v v') (hs : Spreading v') (hsig : v.Signaled) : Sending v' :=
  { hs, h.signaled hsig with }

theorem sending_create {qpNums : List ℕ} {notifyQpNum : ℕ} (hne : qpNums ≠ [])
    (hnodup : (notifyQpNum :: qpNums).Nodup) (maxMsgCntPerQp maxMsgSize : ℤ)
    (scheme : LoadBalancingScheme) :
    Sending (create qpNums notifyQpNum maxMsgCntPerQp maxMsgSize scheme) where
  wired := wired_create hne hnodup maxMsgCntPerQp maxMsgSize scheme
  next := by
    simp only [create, List.length_map]
    exact List.length_pos_iff.mpr hne
  mirror q hq := by
    rcases fresh_of_mem_create hq with ⟨n, rfl⟩
    rfl
  signaled q hq := by
    rcases fresh_of_mem_create hq with ⟨n, rfl⟩
    simp [WorkQueue.outstanding]
  reported _ h := nomatch h
  pending _ h := nomatch h
  notifies _ h := nomatch h

theorem sendLeft_create (qpNums : List ℕ) (notifyQpNum : ℕ) (maxMsgCntPerQp maxMsgSize : ℤ)
    (scheme : LoadBalancingScheme) (id : ℕ) :
    (create qpNums notifyQpNum maxMsgCntPerQp maxMsgSize scheme).sendLeft id = 0 := by
  have hfly := @inFlight_create qpNums notifyQpNum maxMsgCntPerQp maxMsgSize scheme
    IbvQp.physicalSendWrStatus_ (fun _ => rfl) id
  rw [sendLeft, hfly]
  rfl

theorem postSend_spec (hs : Sending v) (hmax : 1 ≤ v.maxMsgSize_)
    (hwr : Sendable v.maxMsgSize_ wr) :
    ∃ n extra v', v.postSend wr = .ok (.SEND v'.virtualQpNum_ n wr extra, v') ∧ 0 < n ∧
      (∀ sg ∈ wr.sg_list, n = segments v.maxMsgSize_ sg.length + if extra then 1 else 0) ∧
      (extra = true → 1 < n) ∧
      (extra = true ↔ wr.opcode = .IBV_WR_RDMA_WRITE_WITH_IMM ∧ v.loadBalancingScheme_ = .SPRAY) ∧
      Sending v' ∧ Moved { v with pendingSendVirtualWrQue_ :=
        v.pendingSendVirtualWrQue_ ++ [VirtualSendWr.ofWr wr n extra] } v' ∧ Stopped v' := by
  rcases hs.toSpreading.postSend hmax hwr.divisible with
    ⟨n, extra, v', hpost, hn, hsegs, hmany, hextra, hs', hmoved, hstop⟩
  have hcopy : (VirtualSendWr.ofWr wr n extra).wr.Reported := by
    rw [hwr.divisible.ofWr]
    exact hwr.signaled
  exact ⟨n, extra, v', hpost, hn, hsegs, hmany, hextra,
    Sending.moved hmoved hs' (hs.toSignaled.push hcopy), hmoved, hstop⟩

theorem completeSend_spec (hs : Sending v) (hq : v.qp? k = some q)
    (hout : q.sq.outstanding = x :: xs) :
    ∃ sq v', q.completeSend = some (x, { q with sq := sq }) ∧ sq.posted = q.sq.posted ∧
      (v.setQp k { q with sq := sq }).processRequest ⟨.SEND, x.wr.wr_id, q.qp_num, 0⟩ =
        .ok (⟨x.virtualWrId, false, 0⟩, v') ∧
      Sending v' ∧ Moved (v.setQp k (retireSend q sq (xs.map SendWqe.status))) v' ∧
      (∀ id, v'.sendLeft id = v.sendLeft id - if x.virtualWrId = id then 1 else 0) ∧
      (Stopped v → Stopped v') := by
  have hsig := hs.signaled q (mem_qps hq) x (by simp [hout])
  rcases hs.toSpreading.completeSend hq hout hsig with
    ⟨sq, v', hcomp, hposted, hsq, hproc, hs', hmoved, hleft, hstop⟩
  exact ⟨sq, v', hcomp, hposted, hproc, Sending.moved hmoved hs' (hs.toSignaled.retire hq hout hsq _),
    hmoved, hleft, hstop⟩

theorem postSendNotifyImm_spec (hs : Sending v) {ws : List VirtualSendWr}
    (hnot : v.pendingSendNotifyVirtualWrQue_ = w :: ws) :
    ∃ wr v', v.postSendNotifyImm = .ok v' ∧
      v'.notifyQp_ = v.notifyQp_.postSend wr w.wr.wr_id ∧ wr.imm_data = w.wr.imm_data ∧
      wr.remote_addr = w.wr.remote_addr ∧ wr.rkey = w.wr.rkey ∧
      wr.opcode = .IBV_WR_RDMA_WRITE_WITH_IMM ∧ Sending v' ∧
      (∀ id, v'.sendLeft id = v.sendLeft id) ∧ v.unnotified = w.wr :: v'.unnotified ∧
      v'.physicalQps_ = v.physicalQps_ ∧
      v'.pendingSendVirtualWrQue_ = v.pendingSendVirtualWrQue_ ∧
      v'.pendingSendNotifyVirtualWrQue_ = ws ∧
      v'.pendingRecvVirtualWrQue_ = v.pendingRecvVirtualWrQue_ ∧
      v'.maxMsgCntPerQp_ = v.maxMsgCntPerQp_ ∧ v'.maxMsgSize_ = v.maxMsgSize_ ∧
      v'.loadBalancingScheme_ = v.loadBalancingScheme_ := by
  rcases hs.toSpreading.postSendNotifyImm hnot with
    ⟨wr, v', hpost, hqp, himm, haddr, hrkey, hop, hsig, hs', hleft, hunn, hqps, hpend, hrest⟩
  have hsignaled : v'.Signaled := by
    constructor
    · intro p hp x hx
      rcases List.mem_cons.mp hp with rfl | hp
      · rw [hqp] at hx
        simp only [IbvQp.postSend, WorkQueue.outstanding_post, List.mem_append,
          List.mem_singleton] at hx
        rcases hx with hx | rfl
        · exact hs.signaled _ (List.mem_cons_self ..) x hx
        · exact hsig
      · rw [hqps] at hp
        exact hs.signaled p (List.mem_cons_of_mem _ hp) x hx
    · rw [hpend]
      exact hs.reported
  exact ⟨wr, v', hpost, hqp, himm, haddr, hrkey, hop, { hs', hsignaled with }, hleft, hunn, hqps,
    hpend, hrest⟩

end IbvVirtualQp
end TorchComms.Ibverbx
