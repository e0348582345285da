import TorchComms.Ibverbx.DqplbRecv
import TorchComms.Ibverbx.DqplbSend

/-! # Notifications in DQPLB mode, from the sender to the virtual receives

Two connected virtual QPs. The segments posted on a QP arrive in order, those of different QPs in
any order; a segment arrives only where a physical receive is posted. The receiver counts the
messages that have arrived with all before them, and completes as many virtual receives, as long
as these were posted first.
-/
namespace TorchComms.Ibverbx

open Foundation

/-- `arrived i` counts the segments of QP `i` that the receiver has polled, `reported` are the
virtual receives it has returned. -/
structure DqplbLink where
  sender : IbvVirtualQp
  receiver : Endpoint
  arrived : ℕ → ℕ := fun _ => 0
  reported : List IbvWc := []

namespace DqplbLink

variable {s : DqplbLink}

/-- The next segment to arrive on a QP. -/
def next (s : DqplbLink) (i : ℕ) : Option SendWqe :=
  (s.sender.physicalQps_[i]?).bind fun q => q.sq.posted[s.arrived i]?

/-- A physical receive is posted on the QP. -/
def ready (s : DqplbLink) (i : ℕ) : Bool :=
  (s.receiver.vqp.physicalQps_[i]?).any fun q => !q.rq.outstanding.isEmpty

/-- The sender processes the completion of its oldest segment on a QP. -/
def sendCompletion (s : DqplbLink) (i : ℕ) : Except Fault DqplbLink :=
  match s.sender.physicalQps_[i]? with
  | none => .error .outOfRange
  | some q =>
    match q.completeSend with
    | none => .ok s
    | some (x, q') =>
      ((s.sender.setQp (some i) q').processRequest ⟨.SEND, x.wr.wr_id, q.qp_num, 0⟩).map fun r =>
        { s with sender := r.2 }

/-- The receiver polls the completion of the next segment on a QP. -/
def arrival (s : DqplbLink) (i : ℕ) (wc : IbvWc) : Except Fault DqplbLink :=
  match s.next i with
  | none => .ok s
  | some x =>
    if s.ready i then
      (s.receiver.recvCompletion (some i) true { wc with imm_data := x.wr.imm_data }).map fun r =>
        { s with receiver := r, arrived := Function.update s.arrived i (s.arrived i + 1) }
    else .ok s

inductive Op where
  | postSend (sendWr : IbvSendWr)
  | sendCompletion (i : ℕ)
  | postRecv (recvWr : IbvRecvWr)
  | arrival (i : ℕ) (wc : IbvWc)
  | pollVirtualCq (numEntries : ℕ)
deriving DecidableEq

def step (s : DqplbLink) : Op → Except Fault DqplbLink
  | .postSend sendWr => (s.sender.postSend sendWr).map fun r => { s with sender := r.2 }
  | .sendCompletion i => s.sendCompletion i
  | .postRecv recvWr => (s.receiver.postRecv recvWr).map fun r => { s with receiver := r }
  | .arrival i wc => s.arrival i wc
  | .pollVirtualCq numEntries =>
    (s.receiver.pollVirtualCq s.receiver.recvCq numEntries).map fun r =>
      { s with receiver := r.2, reported := s.reported ++ r.1 }

/-- Two new virtual QPs. -/
def connect (sendQpNums : List ℕ) (sendNotifyQpNum : ℕ) (recvQpNums : List ℕ)
    (recvNotifyQpNum : ℕ) (maxMsgCntPerQp maxMsgSize : ℤ) (sendCq recvCq : ℕ) : DqplbLink where
  sender := .create sendQpNums sendNotifyQpNum maxMsgCntPerQp maxMsgSize .DQPLB
  receiver := .create recvQpNums recvNotifyQpNum maxMsgCntPerQp maxMsgSize .DQPLB sendCq recvCq

/-! ### What is delivered -/

def Op.sent : Op → Option IbvSendWr
  | .postSend sendWr => some sendWr
  | _ => none

def Op.received : Op → Option IbvRecvWr
  | .postRecv recvWr => some recvWr
  | _ => none

/-- The number of segments of a message. -/
def parts (maxMsgSize : ℤ) (wr : IbvSendWr) : ℕ :=
  (wr.sg_list.map fun sg => IbvVirtualQp.segments maxMsgSize sg.length).getD 0

/-- The segments of each message, in the order of the posts. -/
def counts (past : List Op) (s : DqplbLink) : List ℕ :=
  (past.filterMap Op.sent).map (parts s.sender.maxMsgSize_)

def recvs (past : List Op) : List IbvRecvWr := past.filterMap Op.received

/-- The segments that have arrived; the sender numbers them as it posts them. -/
def arrivedPlaces (s : DqplbLink) : List ℕ :=
  s.sender.physicalQps_.zipIdx.flatMap fun p =>
    (p.1.sq.posted.take (s.arrived p.2)).map fun x => x.wr.wr_id

/-- The messages of which all segments and all segments before them have arrived. -/
def arrivedMessages (past : List Op) (s : DqplbLink) : ℕ :=
  (List.range (s.counts past).length).countP fun k =>
    decide (∀ p < ((s.counts past).take (k + 1)).sum, p ∈ s.arrivedPlaces)

/-- The virtual receives that are complete, returned or not. -/
def completeRecvs (s : DqplbLink) : ℕ :=
  s.reported.length +
    completeCount (s.receiver.cqs s.receiver.recvCq).pendingRecvVirtualWcQue_.items

def Delivered (past : List Op) (s : DqplbLink) : Prop :=
  s.completeRecvs = min (recvs past).length (s.arrivedMessages past)

/-- No segment that is still missing was posted `kSeqNumMask` or more places before the next
segment to arrive on the QP. -/
def InWindow (s : DqplbLink) (i : ℕ) : Prop :=
  ∀ x ∈ s.next i, ∀ p < x.wr.wr_id, p ∉ s.arrivedPlaces → x.wr.wr_id < p + kSeqNumMask

instance (s : DqplbLink) (i : ℕ) : Decidable (InWindow s i) := by
  unfold InWindow
  infer_instance

/-- Messages with immediate data, and receives of notifications. -/
def WellFormed (_ : List Op) (s : DqplbLink) : Op → Prop
  | .postSend sendWr => IbvVirtualQp.Sendable s.sender.maxMsgSize_ sendWr ∧
      sendWr.opcode = .IBV_WR_RDMA_WRITE_WITH_IMM
  | .sendCompletion i => i < s.sender.physicalQps_.length
  | .postRecv recvWr => recvWr.num_sge = 0
  | .arrival i _ => InWindow s i
  | .pollVirtualCq _ => True

instance (past : List Op) (s : DqplbLink) (op : Op) : Decidable (WellFormed past s op) := by
  cases op <;> unfold WellFormed <;> infer_instance

/-- Moreover, no message has arrived that the receives posted before do not take. -/
def InTime (past : List Op) (s : DqplbLink) (op : Op) : Prop :=
  WellFormed past s op ∧
    match op with
    | .postRecv _ => s.arrivedMessages past ≤ (recvs past).length
    | _ => True

instance (past : List Op) (s : DqplbLink) (op : Op) : Decidable (InTime past s op) := by
  cases op <;> unfold InTime <;> infer_instance

/-! ### Places -/

open DqplbSeqTracker (immOf)

variable {segs segs' : List (ℕ × Bool)} {i j n : ℕ} {cs : List ℕ}

/-- Whether a segment ends its message. -/
def lastFlag (segs : List (ℕ × Bool)) (i : ℕ) : Bool := (segs[i]?.map Prod.snd).getD false

/-- The places on a QP of the first `a` segments posted on it. -/
def placesOn (segs : List (ℕ × Bool)) (j a : ℕ) : List ℕ := ((onQp segs j).take a).map Prod.snd

theorem getElem?_of_onQp {x : (ℕ × Bool) × ℕ} (hx : x ∈ onQp segs j) :
    segs[x.2]? = some x.1 ∧ x.1.1 = j := by
  simp only [onQp, List.mem_filter, decide_eq_true_eq] at hx
  refine ⟨?_, hx.2⟩
  have hmem := List.mem_zipIdx_iff_getElem?.mp hx.1
  exact hmem

theorem onQp_nodup (segs : List (ℕ × Bool)) (j : ℕ) : ((onQp segs j).map Prod.snd).Nodup := by
  have hsub : ((onQp segs j).map Prod.snd).Sublist (segs.zipIdx.map Prod.snd) :=
    List.filter_sublist.map _
  apply List.Nodup.sublist hsub
  rw [List.zipIdx_map_snd]
  exact List.nodup_range'

theorem prefix_onQp (h : segs <+: segs') (j : ℕ) : onQp segs j <+: onQp segs' j := by
  rcases h with ⟨t, rfl⟩
  simp only [onQp, List.zipIdx_append, List.filter_append]
  exact List.prefix_append _ _

theorem placesOn_of_append (h : segs <+: segs') {a : ℕ} (ha : a ≤ (onQp segs j).length) :
    placesOn segs' j a = placesOn segs j a := by
  rcases prefix_onQp h j with ⟨t, ht⟩
  rw [placesOn, ← ht, List.take_append_of_le_length ha, placesOn]

variable {v : IbvVirtualQp}

theorem posted_ids {cs : List ℕ} (h : v.Posting cs segs) {q : IbvQp}
    (hq : v.physicalQps_[j]? = some q) :
    q.sq.posted.map (fun x => x.wr.wr_id) = (onQp segs j).map Prod.snd := by
  have hplace := congrArg (List.map Prod.fst) (h.place j q hq)
  rw [List.map_map, List.map_map] at hplace
  exact hplace

theorem mem_arrivedPlaces (h : s.sender.Posting cs segs) :
    n ∈ s.arrivedPlaces ↔
      ∃ j, j < s.sender.physicalQps_.length ∧ n ∈ placesOn segs j (s.arrived j) := by
  simp only [arrivedPlaces, List.mem_flatMap, Prod.exists]
  constructor
  · rintro ⟨q, j, hmem, hn⟩
    have hq : s.sender.physicalQps_[j]? = some q := List.mem_zipIdx_iff_getElem?.mp hmem
    refine ⟨j, (List.getElem?_eq_some_iff.mp hq).1, ?_⟩
    rw [placesOn, List.map_take, ← posted_ids h hq, ← List.map_take]
    exact hn
  · rintro ⟨j, hj, hn⟩
    have hq := List.getElem?_eq_getElem hj
    refine ⟨_, j, List.mem_zipIdx_iff_getElem?.mpr hq, ?_⟩
    rw [placesOn, List.map_take, ← posted_ids h hq, ← List.map_take] at hn
    exact hn

variable {x : SendWqe} {op : Op}

section

variable (h : s.sender.Posting cs segs) (hx : s.next j = some x)
include h hx

theorem next_spec :
    ∃ last, (onQp segs j)[s.arrived j]? = some ((j, last), x.wr.wr_id) ∧
      x.wr.imm_data = immOf x.wr.wr_id last ∧ j < s.sender.physicalQps_.length := by
  rw [next, Option.bind_eq_some_iff] at hx
  rcases hx with ⟨q, hq, hx⟩
  have hplace := congrArg (fun l => l[s.arrived j]?) (h.place j q hq)
  simp only [List.getElem?_map, hx, Option.map_some] at hplace
  rcases Option.map_eq_some_iff.mp hplace.symm with ⟨y, hy, hyx⟩
  rw [Prod.mk.injEq] at hyx
  rcases getElem?_of_onQp (List.mem_of_getElem? hy) with ⟨_, hj⟩
  refine ⟨y.1.2, ?_, ?_, (List.getElem?_eq_some_iff.mp hq).1⟩
  · rw [hy, ← hyx.1, ← hj]
  · rw [← hyx.2, hyx.1]

theorem next_not_arrived : x.wr.wr_id ∉ s.arrivedPlaces := by
  rcases next_spec h hx with ⟨last, hget, _, _⟩
  intro hmem
  rcases (mem_arrivedPlaces h).mp hmem with ⟨j', _, hin⟩
  rw [placesOn] at hin
  rcases List.mem_map.mp hin with ⟨y, hy, hyx⟩
  have hy' := getElem?_of_onQp (List.mem_of_mem_take hy)
  have hx' := getElem?_of_onQp (List.mem_of_getElem? hget)
  rw [hyx] at hy'
  have hjj : j' = j := by
    have heq := hy'.1.symm.trans hx'.1
    rw [← hy'.2, Option.some.inj heq]
  subst hjj
  rcases List.mem_take_iff_getElem.mp hy with ⟨b, hb, hby⟩
  rcases List.getElem?_eq_some_iff.mp hget with ⟨hlt, hgetx⟩
  have hblt : b < ((onQp segs j').map Prod.snd).length := by
    rw [List.length_map]
    omega
  have halt : s.arrived j' < ((onQp segs j').map Prod.snd).length := by
    rw [List.length_map]
    exact hlt
  have heq : ((onQp segs j').map Prod.snd)[b] = ((onQp segs j').map Prod.snd)[s.arrived j'] := by
    rw [List.getElem_map, List.getElem_map, hby, hgetx, hyx]
  have hidx : b = s.arrived j' := (onQp_nodup segs j').getElem_inj_iff.mp heq
  omega

theorem placesOn_succ :
    placesOn segs j (s.arrived j + 1) = placesOn segs j (s.arrived j) ++ [x.wr.wr_id] := by
  rcases next_spec h hx with ⟨last, hget, _, _⟩
  rw [placesOn, List.take_add_one, hget, List.map_append, placesOn]
  rfl

end

theorem lt_of_arrived (h : s.sender.Posting cs segs) (hn : n ∈ s.arrivedPlaces) :
    n < segs.length := by
  rcases (mem_arrivedPlaces h).mp hn with ⟨j, _, hin⟩
  rcases List.mem_map.mp hin with ⟨y, hy, rfl⟩
  have hy' := getElem?_of_onQp (List.mem_of_mem_take hy)
  exact (List.getElem?_eq_some_iff.mp hy'.1).1

theorem lastFlag_of_append (h : segs <+: segs') (hn : n < segs.length) :
    lastFlag segs' n = lastFlag segs n := by
  rcases h with ⟨t, rfl⟩
  rw [lastFlag, List.getElem?_append_left hn, lastFlag]

/-! ### The invariant -/

/-- The virtual receives of the receiver that are posted and not returned. -/
def waitingRecvs (s : DqplbLink) : List VirtualWc :=
  (s.receiver.cqs s.receiver.recvCq).pendingRecvVirtualWcQue_.items

/-- The segments `segs` have been posted; those before `p` have all arrived, and the messages that
end there have completed virtual receives. -/
structure Balanced (past : List Op) (segs : List (ℕ × Bool)) (p : ℕ) (s : DqplbLink) : Prop where
  sending : s.sender.Sending
  size : 1 ≤ s.sender.maxMsgSize_
  preposted : s.receiver.vqp.Preposted
  length : s.receiver.vqp.physicalQps_.length = s.sender.physicalQps_.length
  noSends : (s.receiver.cqs s.receiver.recvCq).pendingSendVirtualWcQue_.items = []
  unit : Unit01 s.waitingRecvs
  waiting : s.reported.length + s.waitingRecvs.length = (recvs past).length
  counts : ∀ n ∈ s.counts past, 1 ≤ n
  posting : s.sender.Posting (s.counts past) segs
  arrived : ∀ j < s.sender.physicalQps_.length, s.arrived j ≤ (onQp segs j).length
  held : ReorderBuffer.Holds kSeqNumMask (lastFlag segs) {n | n ∈ s.arrivedPlaces} p
    ⟨s.receiver.vqp.dqplbSeqTracker.receiveNext_, s.receiver.vqp.dqplbSeqTracker.receivedSeqNums_⟩
  missing : p ∉ s.arrivedPlaces
  complete : s.completeRecvs = min (recvs past).length (((segs.map Prod.snd).take p).count true)

variable {past : List Op} {p : ℕ}

section

variable (h : Balanced past segs p s)
include h

theorem Balanced.le_length : p ≤ segs.length := by
  cases p with
  | zero => exact Nat.zero_le _
  | succ p => exact lt_of_arrived h.posting (h.held.below p (Nat.lt_succ_self p))

theorem Balanced.arrivedMessages :
    s.arrivedMessages past = ((segs.map Prod.snd).take p).count true := by
  have htake : (segs.map Prod.snd).take p = ((s.counts past).flatMap lastFlags).take p := by
    rw [← h.posting.flags, List.take_append_of_le_length]
    rw [List.length_map]
    exact h.le_length
  have hall : ∀ n, (∀ q < n, q ∈ s.arrivedPlaces) ↔ n ≤ p := by
    intro n
    constructor
    · intro hn
      by_contra hlt
      exact h.missing (hn p (Nat.lt_of_not_le hlt))
    · intro hle q hq
      exact h.held.below q (Nat.lt_of_lt_of_le hq hle)
  rw [htake, count_take_flags h.counts, DqplbLink.arrivedMessages]
  apply List.countP_congr
  intro k _
  simp only [decide_eq_true_eq]
  exact hall _

theorem Balanced.delivered : Delivered past s := by
  rw [Delivered, h.complete, h.arrivedMessages]

/-! ### Steps of the sender -/

theorem Balanced.sent (hop : op.received = none) (hsending : v.Sending) (hpre : segs <+: segs')
    (hlen : v.physicalQps_.length = s.sender.physicalQps_.length)
    (hsize : v.maxMsgSize_ = s.sender.maxMsgSize_)
    (hcounts : ∀ n ∈ DqplbLink.counts (past ++ [op]) { s with sender := v }, 1 ≤ n)
    (hposting : v.Posting (DqplbLink.counts (past ++ [op]) { s with sender := v }) segs') :
    Balanced (past ++ [op]) segs' p { s with sender := v } := by
  have hrecvs : recvs (past ++ [op]) = recvs past := by
    simp [recvs, List.filterMap_append, hop]
  have hplaces : ∀ j < s.sender.physicalQps_.length,
      placesOn segs' j (s.arrived j) = placesOn segs j (s.arrived j) := by
    intro j hj
    exact placesOn_of_append hpre (h.arrived j hj)
  have hmem : ∀ n, n ∈ ({ s with sender := v } : DqplbLink).arrivedPlaces ↔
      n ∈ s.arrivedPlaces := by
    intro n
    rw [mem_arrivedPlaces h.posting, mem_arrivedPlaces (s := { s with sender := v }) hposting]
    constructor
    · rintro ⟨j, hj, hin⟩
      have hj' : j < s.sender.physicalQps_.length := hlen ▸ hj
      exact ⟨j, hj', hplaces j hj' ▸ hin⟩
    · rintro ⟨j, hj, hin⟩
      exact ⟨j, hlen ▸ hj, (hplaces j hj).symm ▸ hin⟩
  exact
    { sending := hsending
      size := hsize ▸ h.size
      __ := h
      length := h.length.trans hlen.symm
      waiting := by
        rw [hrecvs]
        exact h.waiting
      counts := hcounts
      posting := hposting
      arrived := by
        intro j hj
        exact Nat.le_trans (h.arrived j (hlen ▸ hj)) (prefix_onQp hpre j).length_le
      held := by
        apply h.held.congr hmem
        intro j hj
        exact lastFlag_of_append hpre (lt_of_arrived h.posting hj)
      missing := by
        rw [hmem]
        exact h.missing
      complete := by
        rcases hpre with ⟨t, rfl⟩
        rw [hrecvs, List.map_append, List.take_append_of_le_length]
        · exact h.complete
        · rw [List.length_map]
          exact h.le_length }

end

theorem segments_pos {maxMsgSize : ℤ} (hmax : 1 ≤ maxMsgSize) {length : ℕ}
    (hlen : 1 ≤ length) : 1 ≤ IbvVirtualQp.segments maxMsgSize length := by
  have hpos : 0 < maxMsgSize.toNat := by omega
  rw [IbvVirtualQp.segments, Nat.one_le_div_iff hpos]
  omega

theorem Balanced.postSend (h : Balanced past segs p s) {sendWr : IbvSendWr}
    (hwr : IbvVirtualQp.Sendable s.sender.maxMsgSize_ sendWr)
    (hopcode : sendWr.opcode = .IBV_WR_RDMA_WRITE_WITH_IMM) :
    ∃ s' segs', s.step (.postSend sendWr) = .ok s' ∧
      Balanced (past ++ [.postSend sendWr]) segs' p s' := by
  rcases hwr.sg with ⟨sg, hsg, hseg, _⟩
  rcases h.posting.postSend h.sending h.size hwr hopcode hsg with
    ⟨r, v, segs', hok, hpre, hposting, hsending, hlen, hsize⟩
  have hparts : DqplbLink.parts s.sender.maxMsgSize_ sendWr =
      IbvVirtualQp.segments s.sender.maxMsgSize_ sg.length := by
    rw [Option.mem_def] at hsg
    simp [DqplbLink.parts, hsg]
  have hcounts : DqplbLink.counts (past ++ [.postSend sendWr]) { s with sender := v } =
      s.counts past ++ [IbvVirtualQp.segments s.sender.maxMsgSize_ sg.length] := by
    simp [DqplbLink.counts, List.filterMap_append, Op.sent, hsize, hparts]
  refine ⟨{ s with sender := v }, segs', ?_, ?_⟩
  · simp only [DqplbLink.step, hok, Except.map]
  · apply h.sent rfl hsending hpre hlen hsize
    · rw [hcounts]
      intro n hn
      rcases List.mem_append.mp hn with hn | hn
      · exact h.counts n hn
      · rw [List.mem_singleton.mp hn]
        exact segments_pos h.size hseg.nonempty
    · rw [hcounts]
      exact hposting

theorem Balanced.sendCompletion (h : Balanced past segs p s) {i : ℕ}
    (hi : i < s.sender.physicalQps_.length) :
    ∃ s' segs', s.step (.sendCompletion i) = .ok s' ∧
      Balanced (past ++ [.sendCompletion i]) segs' p s' := by
  have hq := List.getElem?_eq_getElem hi
  generalize s.sender.physicalQps_[i] = q at hq
  have hcounts : ∀ v : IbvVirtualQp, v.maxMsgSize_ = s.sender.maxMsgSize_ →
      DqplbLink.counts (past ++ [.sendCompletion i]) { s with sender := v } = s.counts past := by
    intro v hsize
    simp [DqplbLink.counts, List.filterMap_append, Op.sent, hsize]
  cases hout : q.sq.outstanding with
  | nil =>
    have hcomp : q.completeSend = none := by
      simp only [IbvQp.completeSend, WorkQueue.completeNext_of_empty _ hout, Option.map_none]
    refine ⟨s, segs, ?_, ?_⟩
    · simp only [DqplbLink.step, DqplbLink.sendCompletion, hq, hcomp]
    · apply h.sent rfl h.sending List.prefix_rfl rfl rfl
      · rw [hcounts s.sender rfl]
        exact h.counts
      · rw [hcounts s.sender rfl]
        exact h.posting
  | cons x xs =>
    rcases h.posting.completeSend h.sending hq hout with
      ⟨q', r, v, segs', hcomp, hproc, hpre, hposting, hsending, hlen, hsize⟩
    refine ⟨{ s with sender := v }, segs', ?_, ?_⟩
    · simp only [DqplbLink.step, DqplbLink.sendCompletion, hq, hcomp, hproc, Except.map]
    · apply h.sent rfl hsending hpre hlen hsize
      · rw [hcounts v hsize]
        exact h.counts
      · rw [hcounts v hsize]
        exact hposting

/-! ### Steps of the receiver -/

theorem recvs_silent (past : List Op) (hop : op.received = none) :
    recvs (past ++ [op]) = recvs past := by
  simp [recvs, List.filterMap_append, hop]

theorem counts_silent (past : List Op) (hop : op.sent = none) {s' : DqplbLink}
    (hsender : s'.sender = s.sender) : s'.counts (past ++ [op]) = s.counts past := by
  simp [DqplbLink.counts, List.filterMap_append, hop, hsender]

theorem Balanced.postRecv (h : Balanced past segs p s) {recvWr : IbvRecvWr}
    (hwr : recvWr.num_sge = 0) (htime : s.arrivedMessages past ≤ (recvs past).length) :
    ∃ s', s.step (.postRecv recvWr) = .ok s' ∧
      Balanced (past ++ [.postRecv recvWr]) segs p s' := by
  rcases IbvVirtualQp.recvSegmentCount_notify s.receiver.vqp hwr with ⟨hnum, hcount⟩
  rcases h.preposted.postRecv hnum hcount with ⟨v, hok, hpreposted, hsame, _⟩
  have hwaiting : ∀ e : Endpoint, e = ({ s.receiver with vqp := v } : Endpoint).updateCq
      s.receiver.recvCq ((s.receiver.cqs s.receiver.recvCq).processRequest
        (.RECV s.receiver.vqp.virtualQpNum_ 1 recvWr)) →
      (e.cqs e.recvCq).pendingRecvVirtualWcQue_.items = s.waitingRecvs ++
        [.fresh recvWr.wr_id s.receiver.vqp.virtualQpNum_ 1 false] ∧
      (e.cqs e.recvCq).pendingSendVirtualWcQue_.items = [] ∧ e.vqp = v := by
    rintro e rfl
    simp only [Endpoint.updateCq, Function.update_self]
    exact ⟨rfl, h.noSends, trivial⟩
  generalize hreceiver : ({ s.receiver with vqp := v } : Endpoint).updateCq
      s.receiver.recvCq ((s.receiver.cqs s.receiver.recvCq).processRequest
        (.RECV s.receiver.vqp.virtualQpNum_ 1 recvWr)) = e at hwaiting
  rcases hwaiting e rfl with ⟨hitems, hsends, hvqp⟩
  have hrecvs : recvs (past ++ [.postRecv recvWr]) = recvs past ++ [recvWr] := by
    simp [recvs, List.filterMap_append, Op.received]
  have hcounts : DqplbLink.counts (past ++ [.postRecv recvWr]) { s with receiver := e } =
      s.counts past := counts_silent past rfl rfl
  refine ⟨{ s with receiver := e }, ?_, ?_⟩
  · simp only [DqplbLink.step, Endpoint.postRecv, hok, bind, Except.bind, Except.map,
      Endpoint.submitRequestToVirtualCq, hreceiver]
  · exact
      { __ := h
        preposted := hvqp ▸ hpreposted
        length := by
          rw [hvqp, hsame.length]
          exact h.length
        noSends := hsends
        unit := by
          intro w hw
          rw [waitingRecvs, hitems] at hw
          rcases List.mem_append.mp hw with hw | hw
          · exact h.unit w hw
          · rw [List.mem_singleton.mp hw]
            exact Or.inr rfl
        waiting := by
          have hold := h.waiting
          rw [waitingRecvs, hitems, hrecvs, List.length_append, List.length_append]
          change s.reported.length + (s.waitingRecvs.length + 1) = (recvs past).length + 1
          omega
        counts := by
          rw [hcounts]
          exact h.counts
        posting := by
          rw [hcounts]
          exact h.posting
        held := by
          rw [hvqp, hsame.tracker]
          exact h.held
        complete := by
          have hold := h.complete
          rw [← h.arrivedMessages] at hold ⊢
          rw [hrecvs, List.length_append, List.length_singleton]
          have hcount : completeCount (s.waitingRecvs ++
              [.fresh recvWr.wr_id s.receiver.vqp.virtualQpNum_ 1 false]) =
                completeCount s.waitingRecvs := by
            simp [completeCount, VirtualWc.fresh]
          rw [completeRecvs, hitems, hcount]
          change s.completeRecvs = _
          omega }

theorem count_take_range' (segs : List (ℕ × Bool)) (n : ℕ) (hn : p + n ≤ segs.length) :
    ((segs.map Prod.snd).take (p + n)).count true = ((segs.map Prod.snd).take p).count true +
      ((List.range' p n).map (lastFlag segs)).count true := by
  have hslice : (List.range' p n).map (lastFlag segs) = ((segs.map Prod.snd).drop p).take n := by
    apply List.ext_getElem
    · simp only [List.length_map, List.length_range', List.length_take, List.length_drop]
      omega
    · intro k hk _
      simp only [List.length_map, List.length_range'] at hk
      have hlt : p + k < segs.length := by omega
      simp [lastFlag, hlt]
  rw [List.take_add, List.count_append, hslice]

section

variable (h : Balanced past segs p s)
include h

/-- The arrival of the next segment of a QP, which releases `n` segments. -/
theorem Balanced.arrive {i n : ℕ} {wc : IbvWc} (hx : s.next i = some x) (hpreposted : v.Preposted)
    (hlen : v.physicalQps_.length = s.receiver.vqp.physicalQps_.length) {t : DqplbSeqTracker}
    (htracker : v.dqplbSeqTracker = t) (hheld : ReorderBuffer.Holds kSeqNumMask (lastFlag segs)
      (insert x.wr.wr_id {n | n ∈ s.arrivedPlaces}) (p + n)
      ⟨t.receiveNext_, t.receivedSeqNums_⟩)
    (hmiss : p + n ∉ insert x.wr.wr_id {n | n ∈ s.arrivedPlaces}) :
    Balanced (past ++ [.arrival i wc]) segs (p + n) { s with
      receiver := ({ s.receiver with vqp := v } : Endpoint).updateCq s.receiver.recvCq
        ((s.receiver.cqs s.receiver.recvCq).processNotifyCount
          (((List.range' p n).map (lastFlag segs)).count true))
      arrived := Function.update s.arrived i (s.arrived i + 1) } := by
  rcases next_spec h.posting hx with ⟨last, hget, _, hi⟩
  have hplace := placesOn_succ h.posting hx
  generalize hreceiver : ({ s.receiver with vqp := v } : Endpoint).updateCq s.receiver.recvCq
    ((s.receiver.cqs s.receiver.recvCq).processNotifyCount
      (((List.range' p n).map (lastFlag segs)).count true)) = e
  generalize hs' : ({ s with
    receiver := e
    arrived := Function.update s.arrived i (s.arrived i + 1) } : DqplbLink) = s'
  have hsender : s'.sender = s.sender := by rw [← hs']
  have hitems : s'.waitingRecvs = IbvVirtualCq.notifyRecvs
      (((List.range' p n).map (lastFlag segs)).count true) s.waitingRecvs := by
    rw [← hs', ← hreceiver]
    simp only [waitingRecvs, Endpoint.updateCq, Function.update_self]
    rfl
  have hsends : (s'.receiver.cqs s'.receiver.recvCq).pendingSendVirtualWcQue_.items = [] := by
    rw [← hs', ← hreceiver]
    simp only [Endpoint.updateCq, Function.update_self]
    exact h.noSends
  have hvqp : s'.receiver.vqp = v := by
    rw [← hs', ← hreceiver]
    rfl
  have hcounts : s'.counts (past ++ [.arrival i wc]) = s.counts past :=
    counts_silent past rfl hsender
  have hposting : s'.sender.Posting (s.counts past) segs := by
    rw [hsender]
    exact h.posting
  have hmem : ∀ m, m ∈ s'.arrivedPlaces ↔ m ∈ insert x.wr.wr_id {n | n ∈ s.arrivedPlaces} := by
    intro m
    rw [mem_arrivedPlaces hposting, Set.mem_insert_iff, Set.mem_ofPred_eq,
      mem_arrivedPlaces h.posting, hsender, ← hs']
    constructor
    · rintro ⟨j, hj, hin⟩
      by_cases hij : j = i
      · subst hij
        simp only [Function.update_self] at hin
        rw [hplace, List.mem_append, List.mem_singleton] at hin
        rcases hin with hin | hin
        · exact Or.inr ⟨j, hj, hin⟩
        · exact Or.inl hin
      · simp only [Function.update_of_ne hij] at hin
        exact Or.inr ⟨j, hj, hin⟩
    · rintro (rfl | ⟨j, hj, hin⟩)
      · refine ⟨i, hi, ?_⟩
        simp only [Function.update_self]
        rw [hplace]
        exact List.mem_append_right _ (List.mem_singleton_self _)
      · refine ⟨j, hj, ?_⟩
        by_cases hij : j = i
        · subst hij
          simp only [Function.update_self]
          rw [hplace]
          exact List.mem_append_left _ hin
        · simp only [Function.update_of_ne hij]
          exact hin
  have hheld' := hheld.congr (T := {n | n ∈ s'.arrivedPlaces}) hmem fun _ _ => rfl
  have hle : p + n ≤ segs.length := by
    cases hpn : p + n with
    | zero => exact Nat.zero_le _
    | succ m => exact lt_of_arrived hposting (hheld'.below m (by omega))
  rcases notifyRecvs_spec s.waitingRecvs
    (((List.range' p n).map (lastFlag segs)).count true) h.unit with ⟨hlength, hunit, hcount⟩
  have hreported : s'.reported = s.reported := by rw [← hs']
  exact
    { sending := hsender ▸ h.sending
      size := hsender ▸ h.size
      preposted := hvqp ▸ hpreposted
      length := by
        rw [hvqp, hlen, hsender]
        exact h.length
      noSends := hsends
      unit := by
        rw [hitems]
        exact hunit
      waiting := by
        rw [recvs_silent past rfl, hitems, hlength, hreported]
        exact h.waiting
      counts := by
        rw [hcounts]
        exact h.counts
      posting := by
        rw [hcounts]
        exact hposting
      arrived := by
        intro j hj
        rw [← hs']
        by_cases hij : j = i
        · subst hij
          simp only [Function.update_self]
          exact (List.getElem?_eq_some_iff.mp hget).1
        · simp only [Function.update_of_ne hij]
          exact h.arrived j (hsender ▸ hj)
      held := by
        rw [hvqp, htracker]
        exact hheld'
      missing := by
        intro hin
        exact hmiss ((hmem _).mp hin)
      complete := by
        have hold := h.complete
        have hwaiting := h.waiting
        rw [recvs_silent past rfl, count_take_range' segs n hle]
        change s'.reported.length + completeCount s'.waitingRecvs = _
        change s.reported.length + completeCount s.waitingRecvs = _ at hold
        rw [hitems, hcount, hreported]
        omega }

theorem Balanced.arrival {i : ℕ} (hwin : s.InWindow i) (wc : IbvWc) :
    ∃ s' p', s.step (.arrival i wc) = .ok s' ∧ Balanced (past ++ [.arrival i wc]) segs p' s' := by
  have hcounts : s.counts (past ++ [.arrival i wc]) = s.counts past :=
    counts_silent past rfl rfl
  have hidle : Balanced (past ++ [.arrival i wc]) segs p s :=
    h.sent rfl h.sending List.prefix_rfl rfl rfl (by rw [hcounts]; exact h.counts)
      (by rw [hcounts]; exact h.posting)
  cases hx : s.next i with
  | none => exact ⟨s, p, by simp only [DqplbLink.step, DqplbLink.arrival, hx], hidle⟩
  | some x =>
    rcases next_spec h.posting hx with ⟨last, hget, himm, hi⟩
    have hnew := next_not_arrived h.posting hx
    have hplace := placesOn_succ h.posting hx
    cases hready : s.ready i with
    | false =>
      refine ⟨s, p, ?_, hidle⟩
      simp only [DqplbLink.step, DqplbLink.arrival, hx, hready, Bool.false_eq_true, if_false]
    | true =>
      have hi' : i < s.receiver.vqp.physicalQps_.length := h.length ▸ hi
      have hq := List.getElem?_eq_getElem hi'
      generalize s.receiver.vqp.physicalQps_[i] = q at hq
      have hout : ∃ y ys, q.rq.outstanding = y :: ys := by
        cases hout : q.rq.outstanding with
        | nil => simp [ready, hq, hout] at hready
        | cons y ys => exact ⟨y, ys, rfl⟩
      rcases hout with ⟨y, ys, hout⟩
      have hlast : lastFlag segs x.wr.wr_id = last := by
        have hseg := (getElem?_of_onQp (List.mem_of_getElem? hget)).1
        simp only at hseg
        rw [lastFlag, hseg]
        rfl
      have hbelow : p ≤ x.wr.wr_id := by
        by_contra hlt
        exact hnew (h.held.below _ (Nat.lt_of_not_le hlt))
      have hmask : 0 < kSeqNumMask := by decide
      have hwindow : x.wr.wr_id < p + kSeqNumMask := by
        rcases Nat.lt_or_eq_of_le hbelow with hlt | heq
        · exact hwin x hx p hlt h.missing
        · omega
      rcases DqplbSeqTracker.processReceivedImm_spec h.held hnew hwindow with
        ⟨n, t, hproc, hheld, hmiss⟩
      rcases Endpoint.recvCompletion_dqplb (k := some i) h.preposted hq hout true
        { wc with imm_data := x.wr.imm_data } with ⟨v, hok, hpreposted, hlen, htracker, _⟩
      simp only [if_true, himm, ← hlast, hproc] at hok htracker
      refine ⟨{ s with
        receiver := ({ s.receiver with vqp := v } : Endpoint).updateCq s.receiver.recvCq
          ((s.receiver.cqs s.receiver.recvCq).processNotifyCount
            (((List.range' p n).map (lastFlag segs)).count true))
        arrived := Function.update s.arrived i (s.arrived i + 1) }, p + n, ?_, ?_⟩
      · simp only [DqplbLink.step, DqplbLink.arrival, hx, hready, if_true, himm, ← hlast, hok,
          Except.map]
      · exact h.arrive hx hpreposted hlen htracker hheld hmiss

theorem Balanced.pollVirtualCq (numEntries : ℕ) :
    ∃ s', s.step (.pollVirtualCq numEntries) = .ok s' ∧
      Balanced (past ++ [.pollVirtualCq numEntries]) segs p s' := by
  rcases poll_recvs h.noSends h.unit numEntries with ⟨wcs, cq, ws, hok, hsends, hitems, hlen, hzero⟩
  have hcounts : DqplbLink.counts (past ++ [.pollVirtualCq numEntries]) { s with
      receiver := s.receiver.updateCq s.receiver.recvCq cq
      reported := s.reported ++ wcs } = s.counts past := counts_silent past rfl rfl
  have hrecvs : recvs (past ++ [.pollVirtualCq numEntries]) = recvs past := recvs_silent past rfl
  have hcq : (s.receiver.updateCq s.receiver.recvCq cq).cqs s.receiver.recvCq = cq := by
    simp only [Endpoint.updateCq, Function.update_self]
  have hwaiting : s.waitingRecvs = ws ++ cq.pendingRecvVirtualWcQue_.items := hitems
  have hcomplete : completeCount s.waitingRecvs =
      wcs.length + completeCount cq.pendingRecvVirtualWcQue_.items := by
    have hws : completeCount ws = ws.length := by
      rw [completeCount, List.countP_eq_length]
      intro w hw
      exact decide_eq_true (hzero w hw)
    rw [hwaiting, completeCount, List.countP_append, hlen, ← hws]
    rfl
  refine ⟨{ s with
    receiver := s.receiver.updateCq s.receiver.recvCq cq
    reported := s.reported ++ wcs }, ?_, ?_⟩
  · simp only [DqplbLink.step, Endpoint.pollVirtualCq, hok, bind, Except.bind, Except.map]
  · exact
      { __ := h
        noSends := by
          change ((s.receiver.updateCq s.receiver.recvCq cq).cqs
            s.receiver.recvCq).pendingSendVirtualWcQue_.items = []
          rw [hcq]
          exact hsends
        unit := by
          intro w hw
          apply h.unit w
          rw [hwaiting]
          change w ∈ ((s.receiver.updateCq s.receiver.recvCq cq).cqs
            s.receiver.recvCq).pendingRecvVirtualWcQue_.items at hw
          rw [hcq] at hw
          exact List.mem_append_right _ hw
        waiting := by
          have hold := h.waiting
          change (s.reported ++ wcs).length + ((s.receiver.updateCq s.receiver.recvCq cq).cqs
            s.receiver.recvCq).pendingRecvVirtualWcQue_.items.length = _
          rw [hwaiting, List.length_append] at hold
          rw [hrecvs, hcq, List.length_append]
          omega
        counts := by
          rw [hcounts]
          exact h.counts
        posting := by
          rw [hcounts]
          exact h.posting
        complete := by
          have hold := h.complete
          change (s.reported ++ wcs).length + completeCount ((s.receiver.updateCq
            s.receiver.recvCq cq).cqs s.receiver.recvCq).pendingRecvVirtualWcQue_.items = _
          change s.reported.length + completeCount s.waitingRecvs = _ at hold
          rw [hrecvs, hcq, List.length_append]
          omega }

/-! ### Runs -/

theorem Balanced.step (hop : InTime past s op) :
    ∃ s', s.step op = .ok s' ∧ ∃ segs' p', Balanced (past ++ [op]) segs' p' s' := by
  cases op with
  | postSend sendWr =>
    rcases h.postSend hop.1.1 hop.1.2 with ⟨s', segs', hok, h'⟩
    exact ⟨s', hok, segs', p, h'⟩
  | sendCompletion i =>
    rcases h.sendCompletion hop.1 with ⟨s', segs', hok, h'⟩
    exact ⟨s', hok, segs', p, h'⟩
  | postRecv recvWr =>
    rcases h.postRecv hop.1 hop.2 with ⟨s', hok, h'⟩
    exact ⟨s', hok, segs, p, h'⟩
  | arrival i wc =>
    rcases h.arrival hop.1 wc with ⟨s', p', hok, h'⟩
    exact ⟨s', hok, segs, p', h'⟩
  | pollVirtualCq numEntries =>
    rcases h.pollVirtualCq numEntries with ⟨s', hok, h'⟩
    exact ⟨s', hok, segs, p, h'⟩

end

section Creation

variable {sendQpNums recvQpNums : List ℕ} {sendNotifyQpNum recvNotifyQpNum : ℕ}

theorem balanced_connect (hne : sendQpNums ≠ []) (hsend : (sendNotifyQpNum :: sendQpNums).Nodup)
    (hrecv : (recvNotifyQpNum :: recvQpNums).Nodup)
    (hlen : recvQpNums.length = sendQpNums.length) (maxMsgCntPerQp : ℤ) {maxMsgSize : ℤ}
    (hmax : 1 ≤ maxMsgSize) (sendCq recvCq : ℕ) :
    Balanced [] [] 0 (connect sendQpNums sendNotifyQpNum recvQpNums recvNotifyQpNum maxMsgCntPerQp
      maxMsgSize sendCq recvCq) where
  sending := IbvVirtualQp.sending_create hne hsend maxMsgCntPerQp maxMsgSize .DQPLB
  size := hmax
  preposted :=
    { scheme := rfl
      wired := by
        apply IbvVirtualQp.wired_create _ hrecv maxMsgCntPerQp maxMsgSize .DQPLB
        intro hnil
        rw [hnil] at hlen
        exact hne (List.length_eq_zero_iff.mp hlen.symm)
      mirror := by
        intro q hq
        rcases IbvVirtualQp.fresh_of_mem_create hq with ⟨n, rfl⟩
        rfl }
  length := by simp [connect, Endpoint.create, IbvVirtualQp.create, hlen]
  noSends := rfl
  unit := by simp [Unit01, waitingRecvs, connect, Endpoint.create]
  waiting := rfl
  counts := by simp [DqplbLink.counts]
  posting :=
    { scheme := rfl
      imms := by simp [connect, IbvVirtualQp.create]
      flags := rfl
      sendNext := rfl
      wrId := rfl
      place := by
        intro j q hq
        simp only [connect, IbvVirtualQp.create, List.getElem?_map] at hq
        rcases Option.map_eq_some_iff.mp hq with ⟨n, _, rfl⟩
        rfl
      range := by simp }
  arrived := fun _ _ => Nat.zero_le _
  held := by
    apply (ReorderBuffer.holds_init kSeqNumMask (lastFlag [])).congr
    · intro j
      simp [arrivedPlaces, connect, IbvVirtualQp.create]
    · intro j hj
      exact absurd hj (Set.notMem_empty j)
  missing := by simp [arrivedPlaces, connect, IbvVirtualQp.create]
  complete := rfl

/-- Where every message has its receive before the next receive is posted, the virtual receives
that are complete are as many as the messages that have arrived, up to those posted. -/
theorem delivered_of_inTime (hne : sendQpNums ≠ [])
    (hsend : (sendNotifyQpNum :: sendQpNums).Nodup) (hrecv : (recvNotifyQpNum :: recvQpNums).Nodup)
    (hlen : recvQpNums.length = sendQpNums.length) (maxMsgCntPerQp : ℤ) {maxMsgSize : ℤ}
    (hmax : 1 ≤ maxMsgSize) (sendCq recvCq : ℕ) (ops : List Op)
    (hadm : Admissible DqplbLink.step InTime [] (connect sendQpNums sendNotifyQpNum recvQpNums
      recvNotifyQpNum maxMsgCntPerQp maxMsgSize sendCq recvCq) ops) :
    ∃ s, run DqplbLink.step (connect sendQpNums sendNotifyQpNum recvQpNums recvNotifyQpNum
      maxMsgCntPerQp maxMsgSize sendCq recvCq) ops = .ok s ∧ Delivered ops s := by
  have hstep : ∀ past s op, (∃ segs p, Balanced past segs p s) → InTime past s op →
      ∃ s', s.step op = .ok s' ∧ ∃ segs' p', Balanced (past ++ [op]) segs' p' s' := by
    rintro past s op ⟨segs, p, h⟩ hop
    exact h.step hop
  rcases run_invariant (fun past s => ∃ segs p, Balanced past segs p s) hstep ops
    ⟨[], 0, balanced_connect hne hsend hrecv hlen maxMsgCntPerQp hmax sendCq recvCq⟩ hadm with
    ⟨s, hs, segs, p, h⟩
  exact ⟨s, hs, h.delivered⟩

end Creation

/-- A message of two segments, which arrive in the other order, and its receive. -/
theorem delivered_of_inTime_two :
    ∃ s, run DqplbLink.step (connect [10, 11] 12 [20, 21] 22 4 100 0 1)
        [.postRecv ⟨7, none, 0⟩, .postSend ⟨1, some ⟨0, 150, 0⟩, 1, .IBV_WR_RDMA_WRITE_WITH_IMM,
          2, 0, 0, 0⟩, .arrival 0 {}, .arrival 1 {}, .pollVirtualCq 4] = .ok s ∧
      Delivered [.postRecv ⟨7, none, 0⟩, .postSend ⟨1, some ⟨0, 150, 0⟩, 1,
        .IBV_WR_RDMA_WRITE_WITH_IMM, 2, 0, 0, 0⟩, .arrival 0 {}, .arrival 1 {},
        .pollVirtualCq 4] s :=
  delivered_of_inTime (by decide) (by decide) (by decide) (by decide) 4 (by decide) 0 1 _
    (by decide)

/-- Two messages arrive where one receive is posted: the receive posted then stays incomplete. -/
theorem late_recv_not_delivered :
    ¬ ∀ (sendQpNums : List ℕ) (sendNotifyQpNum : ℕ) (recvQpNums : List ℕ) (recvNotifyQpNum : ℕ)
      (maxMsgCntPerQp maxMsgSize : ℤ) (sendCq recvCq : ℕ) (ops : List Op), sendQpNums ≠ [] →
      (sendNotifyQpNum :: sendQpNums).Nodup → (recvNotifyQpNum :: recvQpNums).Nodup →
      recvQpNums.length = sendQpNums.length → 1 ≤ maxMsgSize →
      Admissible DqplbLink.step WellFormed [] (connect sendQpNums sendNotifyQpNum recvQpNums
        recvNotifyQpNum maxMsgCntPerQp maxMsgSize sendCq recvCq) ops →
      ∃ s, run DqplbLink.step (connect sendQpNums sendNotifyQpNum recvQpNums recvNotifyQpNum
        maxMsgCntPerQp maxMsgSize sendCq recvCq) ops = .ok s ∧ Delivered ops s := by
  intro hall
  rcases hall [10, 11] 12 [20, 21] 22 4 100 0 1
    [.postRecv ⟨7, none, 0⟩,
      .postSend ⟨1, some ⟨0, 50, 0⟩, 1, .IBV_WR_RDMA_WRITE_WITH_IMM, 2, 0, 0, 0⟩,
      .postSend ⟨2, some ⟨0, 50, 0⟩, 1, .IBV_WR_RDMA_WRITE_WITH_IMM, 2, 0, 0, 0⟩,
      .arrival 0 {}, .arrival 1 {}, .postRecv ⟨8, none, 0⟩]
    (by decide) (by decide) (by decide) (by decide) (by decide) (by decide) with
    ⟨s, hrun, hdelivered⟩
  cases hrun
  exact absurd hdelivered (by unfold Delivered; decide)

end DqplbLink
end TorchComms.Ibverbx
