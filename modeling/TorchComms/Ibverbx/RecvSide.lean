import TorchComms.Ibverbx.SendSide

/-! # Receiving in SPRAY mode: the parts of a buffer

A virtual receive is one notification or the segments of a buffer; notifications go to the
notify QP and segments to the first data QP.
-/
namespace TorchComms.Ibverbx

open Foundation

/-- The parts of a virtual receive that wait in a queue. -/
def waitingRecv (id : ℕ) (ws : List VirtualRecvWr) : ℤ :=
  (ws.map fun w => if w.wr.wr_id = id then w.remainingMsgCnt else 0).sum

/-- The bytes of a buffer that are posted, as an `int`: the first segment of a buffer of `2 ^ 31`
bytes or more takes a negative length. -/
def Offset (length : ℕ) (offset : ℤ) : Prop :=
  length < 2 ^ 31 ∧ 0 ≤ offset ∧ offset ≤ length ∨
    2 ^ 31 ≤ length ∧ length < 2 ^ 32 ∧ (offset = 0 ∨ offset = length - 2 ^ 32)

/-- A pending receive: a notification, or a buffer of which `offset` bytes are posted. -/
structure Fillable (w : VirtualRecvWr) : Prop where
  left : 0 < w.remainingMsgCnt
  shape : w.wr.num_sge = 0 ∧ w.remainingMsgCnt = 1 ∨
    w.wr.num_sge = 1 ∧ ∃ sg, w.wr.sg_list = some sg ∧ Offset sg.length w.offset

section Waiting

variable {id : ℕ} {w : VirtualRecvWr} {ws : List VirtualRecvWr}

@[simp] theorem waitingRecv_nil (id : ℕ) : waitingRecv id [] = 0 := rfl

@[simp] theorem waitingRecv_cons (id : ℕ) (w : VirtualRecvWr) (ws : List VirtualRecvWr) :
    waitingRecv id (w :: ws) =
      (if w.wr.wr_id = id then w.remainingMsgCnt else 0) + waitingRecv id ws := by
  simp [waitingRecv]

@[simp] theorem waitingRecv_append (id : ℕ) (ws ws' : List VirtualRecvWr) :
    waitingRecv id (ws ++ ws') = waitingRecv id ws + waitingRecv id ws' := by
  simp [waitingRecv]

theorem waitingRecv_nonneg (h : ∀ w ∈ ws, 0 < w.remainingMsgCnt) : 0 ≤ waitingRecv id ws := by
  apply sum_map_nonneg
  intro w hw
  have hpos := h w hw
  split <;> omega

theorem le_waitingRecv (h : ∀ w ∈ ws, 0 < w.remainingMsgCnt) (hw : w ∈ ws) :
    w.remainingMsgCnt ≤ waitingRecv w.wr.wr_id ws := by
  have hle := le_sum_map (f := fun x : VirtualRecvWr =>
    if x.wr.wr_id = w.wr.wr_id then x.remainingMsgCnt else 0) (fun b hb => by
      have hpos := h b hb
      split <;> omega) hw
  rw [if_pos rfl] at hle
  exact hle

end Waiting

namespace IbvVirtualQp

variable {v v' : IbvVirtualQp} {id i : ℕ} {w : VirtualRecvWr} {rest : List VirtualRecvWr}
  {k : Option ℕ} {q : IbvQp}

/-- All parts of a virtual receive that have not completed. -/
def recvLeft (v : IbvVirtualQp) (id : ℕ) : ℤ :=
  waitingRecv id v.pendingRecvVirtualWrQue_ + inFlight IbvQp.physicalRecvWrStatus_ v id

theorem recvLeft_push (v : IbvVirtualQp) (w : VirtualRecvWr) (id : ℕ) :
    ({ v with pendingRecvVirtualWrQue_ := v.pendingRecvVirtualWrQue_ ++ [w] } :
      IbvVirtualQp).recvLeft id = v.recvLeft id + if w.wr.wr_id = id then w.remainingMsgCnt else 0 := by
  simp only [recvLeft, waitingRecv_append, waitingRecv_cons, waitingRecv_nil]
  change _ + ((if w.wr.wr_id = id then w.remainingMsgCnt else 0) + 0) +
    inFlight IbvQp.physicalRecvWrStatus_ v id = _
  omega

structure Receiving (v : IbvVirtualQp) : Prop where
  scheme : v.loadBalancingScheme_ = .SPRAY
  wired : v.Wired
  size : 1 ≤ v.maxMsgSize_
  mirror : ∀ q ∈ v.qps, q.physicalRecvWrStatus_ = q.rq.outstanding.map RecvWqe.status
  pending : ∀ w ∈ v.pendingRecvVirtualWrQue_, Fillable w

/-- A property that posting one part of a receive keeps. -/
structure PartInvariant (Inv : IbvVirtualQp → Prop) : Prop where
  notify : ∀ u u' w rest, Receiving u → Inv u → u.pendingRecvVirtualWrQue_ = w :: rest →
    w.wr.num_sge = 0 → u.postRecvNotifyImm none = .ok u' → Inv u'
  segment : ∀ u u' w rest, Receiving u → Inv u → u.pendingRecvVirtualWrQue_ = w :: rest →
    w.wr.num_sge ≠ 0 → u.postRecvSegment 0 w rest = .ok u' → Inv u'

/-- What posting receives leaves as it is. -/
structure MovedRecv (v v' : IbvVirtualQp) : Prop where
  left : ∀ id, v'.recvLeft id = v.recvLeft id
  sendPart : v'.qps.map IbvQp.sendPart = v.qps.map IbvQp.sendPart
  sendQue : v'.pendingSendVirtualWrQue_ = v.pendingSendVirtualWrQue_
  notifyQue : v'.pendingSendNotifyVirtualWrQue_ = v.pendingSendNotifyVirtualWrQue_
  next : v'.nextSendPhysicalQpIdx_ = v.nextSendPhysicalQpIdx_
  maxMsgCnt : v'.maxMsgCntPerQp_ = v.maxMsgCntPerQp_
  maxMsgSize : v'.maxMsgSize_ = v.maxMsgSize_
  keeps : ∀ Inv : IbvVirtualQp → Prop, PartInvariant Inv → Inv v → Inv v'

theorem MovedRecv.refl (v : IbvVirtualQp) : MovedRecv v v :=
  ⟨fun _ => rfl, rfl, rfl, rfl, rfl, rfl, rfl, fun _ _ h => h⟩

theorem MovedRecv.trans {v'' : IbvVirtualQp} (h : MovedRecv v v') (h' : MovedRecv v' v'') :
    MovedRecv v v'' where
  left := fun id => (h'.left id).trans (h.left id)
  sendPart := h'.sendPart.trans h.sendPart
  sendQue := h'.sendQue.trans h.sendQue
  notifyQue := h'.notifyQue.trans h.notifyQue
  next := h'.next.trans h.next
  maxMsgCnt := h'.maxMsgCnt.trans h.maxMsgCnt
  maxMsgSize := h'.maxMsgSize.trans h.maxMsgSize
  keeps := fun Inv hinv hv => h'.keeps Inv hinv (h.keeps Inv hinv hv)

/-! ### One part -/

variable {sts : List PhysicalWrStatus} {n wrId virtualWrId : ℕ} {xs : List RecvWqe} {maxMsgSize : ℤ}
    {wr : IbvRecvWr} {x : RecvWqe} {length : ℕ}

theorem Segmentable.offset (h : Segmentable maxMsgSize length)
    (hmax : 1 ≤ maxMsgSize) : Offset length 0 := by
  have hsum := h.sum
  rcases Nat.lt_or_ge length (2 ^ 31) with hlt | hge
  · exact Or.inl ⟨hlt, le_rfl, Int.natCast_nonneg _⟩
  · exact Or.inr ⟨hge, by omega, Or.inl rfl⟩

theorem offset_next {offset maxMsgSize : ℤ} (h : Offset length offset) (hmax : 1 ≤ maxMsgSize) :
    Offset length (offset + min (i32 (u32 (length - offset))) maxMsgSize) ∧
      INT_MIN ≤ offset + min (i32 (u32 (length - offset))) maxMsgSize ∧
      offset + min (i32 (u32 (length - offset))) maxMsgSize ≤ INT_MAX := by
  simp only [Offset, INT_MIN, INT_MAX] at *
  rcases h with ⟨hlt, hoff, hoff'⟩ | ⟨hge, hlt, rfl | rfl⟩
  · have hrest : i32 (u32 (length - offset)) = length - offset := by
      rcases Int.eq_ofNat_of_zero_le hoff with ⟨o, rfl⟩
      rw [show (length : ℤ) - o = ((length - o : ℕ) : ℤ) by omega, u32_of_lt (by omega),
        i32_of_lt (by omega)]
    rw [hrest]
    omega
  · have hrest : i32 (u32 (length - 0)) = length - 2 ^ 32 := by
      rw [Int.sub_zero, u32_of_lt hlt, i32, Int.bmod_def, Int.emod_eq_of_lt (by omega) (by omega)]
      omega
    rw [hrest]
    omega
  · have hrest : i32 (u32 (length - (length - 2 ^ 32))) = 0 := by
      rw [show (length : ℤ) - (length - 2 ^ 32) = 2 ^ 32 by omega]
      decide
    rw [hrest]
    omega

/-- A receive of the front of the queue was posted on the QP `k`. -/
theorem Receiving.post (hr : Receiving v) (hpend : v.pendingRecvVirtualWrQue_ = w :: rest)
    (hq : v.qp? k = some q) (wr : IbvRecvWr) (wrId : ℕ) (ws : List VirtualRecvWr)
    (hws : ∀ x ∈ ws, Fillable x) (hwait : ∀ id, waitingRecv id ws = waitingRecv id (w :: rest) -
      if w.wr.wr_id = id then 1 else 0)
    (hkeeps : ∀ Inv, PartInvariant Inv → Inv v → Inv { v.setQp k (q.postRecv wr w.wr.wr_id) with
      nextPhysicalWrId_ := wrId, pendingRecvVirtualWrQue_ := ws }) :
    Receiving { v.setQp k (q.postRecv wr w.wr.wr_id) with
        nextPhysicalWrId_ := wrId, pendingRecvVirtualWrQue_ := ws } ∧
      MovedRecv v { v.setQp k (q.postRecv wr w.wr.wr_id) with
        nextPhysicalWrId_ := wrId, pendingRecvVirtualWrQue_ := ws } := by
  have hfield : ∀ q', (v.setQp k q').loadBalancingScheme_ = v.loadBalancingScheme_ ∧
      (v.setQp k q').maxMsgSize_ = v.maxMsgSize_ ∧
      (v.setQp k q').qpNumToIdx_ = v.qpNumToIdx_ := by
    intro q'
    cases k <;> exact ⟨rfl, rfl, rfl⟩
  rcases hfield (q.postRecv wr w.wr.wr_id) with ⟨hscheme, hsize, hmap⟩
  have hqs := qps_setQp v k (q.postRecv wr w.wr.wr_id)
  constructor
  · exact
      { scheme := hscheme.trans hr.scheme
        wired := hr.wired.of_eq hmap (map_setQp _ hq rfl)
        size := by
          simp only
          rw [hsize]
          exact hr.size
        mirror := by
          intro p hp
          rcases mem_of_mem_set (hqs ▸ hp) with rfl | hp
          · have hmirror := hr.mirror q (mem_qps hq)
            simp [IbvQp.postRecv, hmirror, RecvWqe.status]
          · exact hr.mirror p hp
        pending := hws }
  · have hfly := fun id => inFlight_setQp IbvQp.physicalRecvWrStatus_ hq
      (q.postRecv wr w.wr.wr_id) id
    refine ⟨?_, map_setQp _ hq rfl, ?_, ?_, ?_, ?_, ?_, hkeeps⟩
    · intro id
      have hparts := hwait id
      have hfly := hfly id
      rw [statusCount_postRecv] at hfly
      simp only [recvLeft, hpend]
      change waitingRecv id ws +
        inFlight IbvQp.physicalRecvWrStatus_ (v.setQp k (q.postRecv wr w.wr.wr_id)) id = _
      rw [hfly]
      omega
    all_goals cases k <;> rfl

def recvWeight (ws : List VirtualRecvWr) : ℕ := (ws.map fun w => w.remainingMsgCnt.toNat).sum

theorem recvWeight_lt_recvRounds (ws : List VirtualRecvWr) : recvWeight ws < recvRounds ws := by
  induction ws with
  | nil => simp [recvWeight, recvRounds]
  | cons w ws ih =>
    simp only [recvWeight, recvRounds, List.map_cons, List.sum_cons] at ih ⊢
    have hmin : w.remainingMsgCnt.toNat ≤ (w.remainingMsgCnt - INT_MIN).toNat := by
      simp only [INT_MIN]
      omega
    omega

theorem postRecvNotifyImm_spec (hr : Receiving v)
    (hpend : v.pendingRecvVirtualWrQue_ = w :: rest) (hsge : w.wr.num_sge = 0)
    (hw : w.remainingMsgCnt = 1) :
    ∃ v', v.postRecvNotifyImm none = .ok v' ∧ Receiving v' ∧ MovedRecv v v' ∧
      recvWeight v'.pendingRecvVirtualWrQue_ < recvWeight v.pendingRecvVirtualWrQue_ := by
  have hok : v.postRecvNotifyImm none = .ok { v.setQp none (v.notifyQp_.postRecv
      (notifyRecvWr v.nextPhysicalWrId_) w.wr.wr_id) with
        nextPhysicalWrId_ := v.nextPhysicalWrId_ + 1, pendingRecvVirtualWrQue_ := rest } := by
    simp only [postRecvNotifyImm, qp?, hr.scheme]
    rw [hpend]
  have hpost := hr.post hpend (show v.qp? none = some v.notifyQp_ from rfl)
    (notifyRecvWr v.nextPhysicalWrId_) (v.nextPhysicalWrId_ + 1) rest
    (fun x hx => hr.pending x (by simp [hpend, hx])) (fun id => by
      simp only [waitingRecv_cons, hw]
      omega)
    fun Inv hinv hv => hinv.notify v _ w rest hr hv hpend hsge hok
  refine ⟨_, hok, hpost.1, hpost.2, ?_⟩
  · simp only [hpend, recvWeight, List.map_cons, List.sum_cons, hw]
    omega

theorem postRecvSegment_spec (hr : Receiving v)
    (hpend : v.pendingRecvVirtualWrQue_ = w :: rest) (hsge : w.wr.num_sge ≠ 0)
    (hq : v.physicalQps_[0]? = some q) :
    ∃ v', v.postRecvSegment 0 w rest = .ok v' ∧ Receiving v' ∧ MovedRecv v v' ∧
      recvWeight v'.pendingRecvVirtualWrQue_ < recvWeight v.pendingRecvVirtualWrQue_ := by
  have hw : Fillable w := hr.pending w (by simp [hpend])
  have hleft := hw.left
  rcases hw.shape with ⟨hzero, _⟩ | ⟨hone, sg, hsg, hoff⟩
  · exact absurd hzero hsge
  · rcases offset_next hoff hr.size with ⟨hnext, hmin, hmax⟩
    generalize hlenTo : min (i32 (u32 (sg.length - w.offset))) v.maxMsgSize_ = len at *
    have hok : ¬ (w.remainingMsgCnt = INT_MIN ∨ INT_MAX < w.offset + len ∨
        w.offset + len < INT_MIN) := by
      simp only [INT_MIN, INT_MAX] at *
      omega
    have hpost : v.postRecvSegment 0 w rest = .ok { v.setQp (some 0) (q.postRecv
        ⟨v.nextPhysicalWrId_, some ⟨u64 (sg.addr + w.offset), u32 len, sg.lkey⟩, 1⟩ w.wr.wr_id) with
          nextPhysicalWrId_ := v.nextPhysicalWrId_ + 1
          pendingRecvVirtualWrQue_ := if w.remainingMsgCnt - 1 = 0 then rest else { w with
            offset := w.offset + len, remainingMsgCnt := w.remainingMsgCnt - 1 } :: rest } := by
      simp only [postRecvSegment, hq, hsg, hlenTo, hok, if_false]
    have hfill : ∀ x ∈ if w.remainingMsgCnt - 1 = 0 then rest else { w with
        offset := w.offset + len, remainingMsgCnt := w.remainingMsgCnt - 1 } :: rest, Fillable x := by
      intro x hx
      split at hx
      · exact hr.pending x (by simp [hpend, hx])
      · rcases List.mem_cons.mp hx with rfl | hx
        · refine ⟨?_, Or.inr ⟨hone, sg, hsg, hnext⟩⟩
          simp only
          omega
        · exact hr.pending x (by simp [hpend, hx])
    rcases hr.post hpend (show v.qp? (some 0) = some q from hq) _ _ _ hfill (fun id => by
      split <;> simp only [waitingRecv_cons] <;> split <;> omega)
      (fun Inv hinv hv => hinv.segment v _ w rest hr hv hpend hsge hpost) with ⟨hr', hmoved⟩
    refine ⟨_, hpost, hr', hmoved, ?_⟩
    simp only [hpend]
    split <;> simp only [recvWeight, List.map_cons, List.sum_cons] <;> omega

/-! ### The loop -/

theorem mapPendingRecvRound_spec (hr : Receiving v) (k : Option ℕ) :
    ∃ c v' k', mapPendingRecvRound (v, k) = .ok (c, v', k') ∧ Receiving v' ∧ MovedRecv v v' ∧
      (c = true → recvWeight v'.pendingRecvVirtualWrQue_ <
        recvWeight v.pendingRecvVirtualWrQue_) := by
  cases hpend : v.pendingRecvVirtualWrQue_ with
  | nil =>
    refine ⟨false, v, k, ?_, hr, MovedRecv.refl v, by simp⟩
    simp only [mapPendingRecvRound, hpend]
  | cons w rest =>
    have hw : Fillable w := hr.pending w (by simp [hpend])
    by_cases hsge : w.wr.num_sge = 0
    · have hone : w.remainingMsgCnt = 1 := by
        rcases hw.shape with h | h
        · exact h.2
        · rw [hsge] at h
          exact absurd h.1 (by decide)
      rcases postRecvNotifyImm_spec hr hpend hsge hone with ⟨v', hpost, hr', hmoved, hlt⟩
      refine ⟨true, v', k, ?_, hr', hmoved, fun _ => by rwa [← hpend]⟩
      simp only [mapPendingRecvRound, hpend, hsge, if_true, hpost, bind, Except.bind]
    · have hpos : 0 < v.physicalQps_.length := List.length_pos_iff.mpr hr.wired.data
      have hq := List.getElem?_eq_getElem hpos
      rcases postRecvSegment_spec hr hpend hsge hq with ⟨v', hpost, hr', hmoved, hlt⟩
      have hfind : ∃ o, v.selectRecvQp k = .ok o ∧ (o = none ∨ o = some 0) := by
        by_cases hk : k = some 0
        · exact ⟨some 0, by rw [selectRecvQp, if_pos hk], Or.inr rfl⟩
        · rw [selectRecvQp, if_neg hk]
          by_cases hmax : v.maxMsgCntPerQp_ = -1
          · exact ⟨some 0, by simp [findAvailableRecvQp, hmax], Or.inr rfl⟩
          · simp only [findAvailableRecvQp, hmax, if_false, hq]
            refine ⟨_, rfl, ?_⟩
            split <;> simp
      rcases hfind with ⟨o, ho, rfl | rfl⟩
      · refine ⟨false, v, none, ?_, hr, MovedRecv.refl v, by simp⟩
        simp only [mapPendingRecvRound, hpend, hsge, if_false, ho, bind, Except.bind]
      · refine ⟨true, v', none, ?_, hr', hmoved, fun _ => by rwa [← hpend]⟩
        simp only [mapPendingRecvRound, hpend, hsge, if_false, ho, bind, Except.bind, hpost]

theorem mapPendingRecv_spec (hr : Receiving v) (k : Option ℕ) :
    ∃ v', v.mapPendingRecvQueToPhysicalQp k = .ok v' ∧ Receiving v' ∧ MovedRecv v v' := by
  have hround : ∀ s : IbvVirtualQp × Option ℕ, (Receiving s.1 ∧ MovedRecv v s.1) →
      ∃ c s', mapPendingRecvRound s = .ok (c, s') ∧
        (c = true → (Receiving s'.1 ∧ MovedRecv v s'.1) ∧
          recvWeight s'.1.pendingRecvVirtualWrQue_ < recvWeight s.1.pendingRecvVirtualWrQue_) ∧
        (c = false → Receiving s'.1 ∧ MovedRecv v s'.1) := by
    rintro ⟨u, l⟩ ⟨hu, hmoved⟩
    rcases mapPendingRecvRound_spec hu l with ⟨c, u', l', hround, hu', hmoved', hgo⟩
    exact ⟨c, (u', l'), hround, fun hc => ⟨⟨hu', hmoved.trans hmoved'⟩, hgo hc⟩,
      fun _ => ⟨hu', hmoved.trans hmoved'⟩⟩
  have hloop : ∃ s', loop .diverged mapPendingRecvRound
      (recvRounds v.pendingRecvVirtualWrQue_) (v, k) = .ok s' ∧
      Receiving s'.1 ∧ MovedRecv v s'.1 :=
    loop_invariant _ _ (fun s => recvWeight s.1.pendingRecvVirtualWrQue_) hround
      ⟨hr, MovedRecv.refl v⟩ (recvWeight_lt_recvRounds _)
  rcases hloop with ⟨s', hok, hpost⟩
  refine ⟨s'.1, ?_, hpost⟩
  simp only [mapPendingRecvQueToPhysicalQp, hok, Except.map]

/-! ### Posting -/

/-- A notification, or a buffer that can be cut. -/
def Receivable (maxMsgSize : ℤ) (wr : IbvRecvWr) : Prop :=
  wr.num_sge ≤ 0 ∨ wr.num_sge = 1 ∧ ∃ sg ∈ wr.sg_list, Segmentable maxMsgSize sg.length

instance (maxMsgSize : ℤ) (wr : IbvRecvWr) : Decidable (Receivable maxMsgSize wr) :=
  inferInstanceAs (Decidable (_ ∨ _))

theorem recvSegmentCount_spec (hmax : 1 ≤ v.maxMsgSize_) (hwr : Receivable v.maxMsgSize_ wr) :
    ¬ 1 < wr.num_sge ∧ ∃ n, v.recvSegmentCount wr = .ok n ∧ 0 < n := by
  rcases hwr with h | ⟨hone, sg, hsg, hlen⟩
  · exact ⟨by omega, 1, by rw [recvSegmentCount, if_neg (by omega)], Int.one_pos⟩
  · rw [Option.mem_def] at hsg
    rcases segmentCount_spec hmax hlen with ⟨hc, hpos⟩
    refine ⟨by omega, _, ?_, Int.natCast_pos.mpr hpos⟩
    rw [recvSegmentCount, if_pos hone]
    simp only [hsg, hc]

theorem postRecv_spec (hr : Receiving v) (hwr : Receivable v.maxMsgSize_ wr) :
    ∃ n v', v.postRecv wr = .ok (.RECV v.virtualQpNum_ n wr, v') ∧
      v.recvSegmentCount wr = .ok n ∧ 0 < n ∧ Receiving v' ∧
      MovedRecv { v with pendingRecvVirtualWrQue_ :=
        v.pendingRecvVirtualWrQue_ ++ [VirtualRecvWr.ofWr wr n] } v' := by
  rcases recvSegmentCount_spec hr.size hwr with ⟨hnum, n, hn, hpos⟩
  have hfill : Fillable (VirtualRecvWr.ofWr wr n) := by
    rcases hwr with h | ⟨hone, sg, hsg, hlen⟩
    · have hn1 : n = 1 := by
        rw [recvSegmentCount, if_neg (by omega), Except.ok.injEq] at hn
        exact hn.symm
      subst hn1
      refine ⟨Int.one_pos, Or.inl ⟨?_, rfl⟩⟩
      rw [VirtualRecvWr.ofWr, if_neg (by omega)]
    · rw [Option.mem_def] at hsg
      refine ⟨hpos, Or.inr ⟨?_, sg, ?_, hlen.offset hr.size⟩⟩
      · simp [VirtualRecvWr.ofWr, hsg, hone]
      · simp [VirtualRecvWr.ofWr, hsg, hone]
  have hadd : Receiving { v with pendingRecvVirtualWrQue_ :=
      v.pendingRecvVirtualWrQue_ ++ [VirtualRecvWr.ofWr wr n] } :=
    { __ := hr
      wired := hr.wired.of_eq rfl rfl
      pending := by
        intro x hx
        rcases List.mem_append.mp hx with hx | hx
        · exact hr.pending x hx
        · rw [List.mem_singleton.mp hx]
          exact hfill }
  rcases mapPendingRecv_spec hadd none with ⟨v', hmap, hr', hmoved⟩
  refine ⟨n, v', ?_, hn, hpos, hr', hmoved⟩
  simp only [postRecv, hnum, if_false, hn, bind, Except.bind]
  split
  · rw [hmap]
  · rename_i hscheme
    rw [hr.scheme] at hscheme
    cases hscheme

theorem receiving_create {qpNums : List ℕ} {notifyQpNum : ℕ} (hne : qpNums ≠ [])
    (hnodup : (notifyQpNum :: qpNums).Nodup) (maxMsgCntPerQp : ℤ) (hmax : 1 ≤ maxMsgSize) :
    Receiving (create qpNums notifyQpNum maxMsgCntPerQp maxMsgSize .SPRAY) where
  scheme := rfl
  wired := wired_create hne hnodup maxMsgCntPerQp maxMsgSize .SPRAY
  size := hmax
  mirror q hq := by
    rcases fresh_of_mem_create hq with ⟨n, rfl⟩
    rfl
  pending _ h := nomatch h

theorem recvLeft_create (qpNums : List ℕ) (notifyQpNum : ℕ) (maxMsgCntPerQp maxMsgSize : ℤ)
    (scheme : LoadBalancingScheme) (id : ℕ) :
    (create qpNums notifyQpNum maxMsgCntPerQp maxMsgSize scheme).recvLeft id = 0 := by
  have hfly := @inFlight_create qpNums notifyQpNum maxMsgCntPerQp maxMsgSize scheme
    IbvQp.physicalRecvWrStatus_ (fun _ => rfl) id
  rw [recvLeft, hfly]
  rfl

/-! ### Completing -/

/-- The QP after the completion of its oldest receive. -/
def retireRecv (q : IbvQp) (rq : WorkQueue RecvWqe) (sts : List PhysicalWrStatus) : IbvQp :=
  { q with rq := rq, physicalRecvWrStatus_ := sts }

theorem Receiving.retire (hr : Receiving v) (hq : v.qp? k = some q)
    (hout : q.rq.outstanding = x :: xs) {rq : WorkQueue RecvWqe} (hrq : rq.outstanding = xs) :
    Receiving (v.setQp k (retireRecv q rq (xs.map RecvWqe.status))) ∧
      ∀ id, (v.setQp k (retireRecv q rq (xs.map RecvWqe.status))).recvLeft id =
        v.recvLeft id - if x.virtualWrId = id then 1 else 0 := by
  have hfield : ∀ q', (v.setQp k q').loadBalancingScheme_ = v.loadBalancingScheme_ ∧
      (v.setQp k q').maxMsgSize_ = v.maxMsgSize_ ∧
      (v.setQp k q').pendingRecvVirtualWrQue_ = v.pendingRecvVirtualWrQue_ ∧
      (v.setQp k q').qpNumToIdx_ = v.qpNumToIdx_ := by
    intro q'
    cases k <;> exact ⟨rfl, rfl, rfl, rfl⟩
  rcases hfield (retireRecv q rq (xs.map RecvWqe.status)) with ⟨hscheme, hsize, hpend, hmap⟩
  have hqs := qps_setQp v k (retireRecv q rq (xs.map RecvWqe.status))
  have hmirror := hr.mirror q (mem_qps hq)
  rw [hout] at hmirror
  constructor
  · exact
      { scheme := hscheme.trans hr.scheme
        wired := hr.wired.of_eq hmap (map_setQp _ hq rfl)
        size := by
          rw [hsize]
          exact hr.size
        mirror := by
          intro p hp
          rcases mem_of_mem_set (hqs ▸ hp) with rfl | hp
          · rw [retireRecv, hrq]
          · exact hr.mirror p hp
        pending := by
          rw [hpend]
          exact hr.pending }
  · intro id
    have hfly := inFlight_setQp IbvQp.physicalRecvWrStatus_ hq
      (retireRecv q rq (xs.map RecvWqe.status)) id
    simp only [hmirror, List.map_cons, statusCount_cons, retireRecv, RecvWqe.status] at hfly
    simp only [recvLeft, hpend]
    simp only [retireRecv]
    omega

theorem processRequest_recv_notify
    (hscheme : v.loadBalancingScheme_ = .SPRAY) (hidx : v.idxOfQpNum n = .ok none)
    (hq : v.qp? none = some q) (hst : q.physicalRecvWrStatus_ = ⟨wrId, virtualWrId⟩ :: sts)
    (immData : ℕ) :
    v.processRequest ⟨.RECV, wrId, n, immData⟩ = .ok (⟨virtualWrId, false, 0⟩,
      v.setQp none { q with physicalRecvWrStatus_ := sts }) := by
  simp only [processRequest, hidx, bind, Except.bind, hq, processRecv, hst, ne_eq,
    not_true_eq_false, if_false]
  rw [show (v.setQp none { q with physicalRecvWrStatus_ := sts }).loadBalancingScheme_ = .SPRAY from
    hscheme]

theorem processRequest_recv_data
    (hscheme : v.loadBalancingScheme_ = .SPRAY) (hidx : v.idxOfQpNum n = .ok (some i))
    (hq : v.qp? (some i) = some q) (hst : q.physicalRecvWrStatus_ = ⟨wrId, virtualWrId⟩ :: sts)
    (immData : ℕ) (hmap : (v.setQp (some i) { q with
      physicalRecvWrStatus_ := sts }).mapPendingRecvQueToPhysicalQp (some i) = .ok v') :
    v.processRequest ⟨.RECV, wrId, n, immData⟩ = .ok (⟨virtualWrId, false, 0⟩, v') := by
  simp only [processRequest, hidx, bind, Except.bind, hq, processRecv, hst, ne_eq,
    not_true_eq_false, if_false]
  rw [show (v.setQp (some i) { q with physicalRecvWrStatus_ := sts }).loadBalancingScheme_ =
    .SPRAY from hscheme]
  simp only [hmap]

theorem completeRecv_spec (hr : Receiving v) (hq : v.qp? k = some q)
    (hout : q.rq.outstanding = x :: xs) (immData : ℕ) :
    ∃ rq v', q.completeRecv = some (x, { q with rq := rq }) ∧ rq.posted = q.rq.posted ∧
      rq.completed = q.rq.completed + 1 ∧
      (v.setQp k { q with rq := rq }).processRequest ⟨.RECV, x.wr.wr_id, q.qp_num, immData⟩ =
        .ok (⟨x.virtualWrId, false, 0⟩, v') ∧
      Receiving v' ∧ MovedRecv (v.setQp k (retireRecv q rq (xs.map RecvWqe.status))) v' ∧
      (∀ id, v'.recvLeft id = v.recvLeft id - if x.virtualWrId = id then 1 else 0) := by
  rcases WorkQueue.completeNext_of_front (fun _ => true) hout rfl with
    ⟨rq, hcomplete, hrq, hposted, hcompleted⟩
  rcases hr.retire hq hout hrq with ⟨hr', hleft⟩
  have hmirror := hr.mirror q (mem_qps hq)
  rw [hout, List.map_cons] at hmirror
  have hwired : (v.setQp k { q with rq := rq }).Wired := by
    apply hr.wired.of_eq
    · cases k <;> rfl
    · exact map_setQp _ hq rfl
  have hscheme : (v.setQp k { q with rq := rq }).loadBalancingScheme_ = .SPRAY := by
    cases k <;> exact hr.scheme
  have hget : (v.setQp k { q with rq := rq }).qp? k = some { q with rq := rq } := by
    rw [qp?_setQp hq, if_pos rfl]
  have hidx := hwired.index k _ hget
  have hretire : (v.setQp k { q with rq := rq }).setQp k { q with
      rq := rq, physicalRecvWrStatus_ := xs.map RecvWqe.status } =
        v.setQp k (retireRecv q rq (xs.map RecvWqe.status)) := setQp_setQp v k _ _
  have hcomp : q.completeRecv = some (x, { q with rq := rq }) := by
    simp only [IbvQp.completeRecv, hcomplete, Option.map_some]
  have hst : ({ q with rq := rq } : IbvQp).physicalRecvWrStatus_ =
      ⟨x.wr.wr_id, x.virtualWrId⟩ :: xs.map RecvWqe.status := hmirror
  cases k with
  | none =>
    have hproc := processRequest_recv_notify hscheme hidx hget hst immData
    exact ⟨rq, _, hcomp, hposted, hcompleted, hproc, hr', MovedRecv.refl _, hleft⟩
  | some i =>
    rcases mapPendingRecv_spec hr' (some i) with ⟨v', hmap, hr'', hmoved⟩
    have hproc := processRequest_recv_data hscheme hidx hget hst immData
      (by rw [hretire]; exact hmap)
    refine ⟨rq, v', hcomp, hposted, hcompleted, hproc, hr'', hmoved, ?_⟩
    intro id
    rw [hmoved.left, hleft]

end IbvVirtualQp
end TorchComms.Ibverbx
