import TorchComms.Ibverbx.Accounts
import TorchComms.Ibverbx.SendPartition

/-! # The limits of one send

A send on an endpoint where nothing is in flight, and the completions that follow it in any order.
A request of 1 to `2 ^ 31 - 1` bytes is cut into segments that fit, counted down to zero and
notified once.
-/
namespace TorchComms.Ibverbx

open Foundation

/-- A data segment that notifies the receiver. -/
def SendWqe.notifies (x : SendWqe) : Bool :=
  decide (x.wr.opcode = .IBV_WR_RDMA_WRITE_WITH_IMM) && x.wr.imm_data &&& 1 <<< kNotifyBit != 0

namespace IbvVirtualQp

open DqplbSeqTracker (immOf_notify getSendImm_eq)

variable {v v' : IbvVirtualQp} {w : VirtualSendWr} {rest : List VirtualSendWr} {wr : IbvSendWr}
  {g : IbvSge} {old : List SendWqe} {total i : ℕ} {m : ℤ}

/-- The notifications posted so far: on the notify QP, or with the last segments. -/
def notices (v : IbvVirtualQp) : ℕ :=
  match v.loadBalancingScheme_ with
  | .SPRAY => v.notifyQp_.sq.posted.countP fun x => x.wr.opcode = .IBV_WR_RDMA_WRITE_WITH_IMM
  | .DQPLB => v.dataSegments.countP SendWqe.notifies

/-- The request ends with a notification of its own. -/
def Extra (v : IbvVirtualQp) (wr : IbvSendWr) : Prop :=
  wr.opcode = .IBV_WR_RDMA_WRITE_WITH_IMM ∧ v.loadBalancingScheme_ = .SPRAY

/-! ### The segments of one request -/

/-- The segments still to be posted. -/
def unposted (ws : List VirtualSendWr) : ℤ :=
  (ws.map fun w => w.remainingMsgCnt - if w.sendExtraNotifyImm then 1 else 0).sum

/-- Since the log was `old`, segments of the request `wr` alone have been posted. -/
structure InLimits (old : List SendWqe) (wr : IbvSendWr) (g : IbvSge) (total : ℕ)
    (v : IbvVirtualQp) : Prop where
  size : 1 ≤ v.maxMsgSize_
  numbered : v.dqplbSeqTracker.sendNext_ < kSeqNumMask
  pending : v.pendingSendVirtualWrQue_ = [] ∨ ∃ w, v.pendingSendVirtualWrQue_ = [w] ∧ w.wr = wr ∧
    0 ≤ w.offset ∧ w.offset ≤ g.length ∧
    (w.sendExtraNotifyImm ↔ v.Extra wr)
  log : ∃ new, v.dataSegments.Perm (old ++ new) ∧
    (∀ x ∈ new, ∀ s ∈ x.wr.sg_list, (s.length : ℤ) ≤ v.maxMsgSize_) ∧
    new.length + unposted v.pendingSendVirtualWrQue_ = total ∧
    (v.loadBalancingScheme_ = .DQPLB → wr.opcode = .IBV_WR_RDMA_WRITE_WITH_IMM →
      new.countP SendWqe.notifies + v.pendingSendVirtualWrQue_.length = 1)

theorem piece_le {s : ℕ} {e : ℤ} (hm : 1 ≤ m) (hs : s < 2 ^ 31) (he : 0 ≤ e) (hle : e ≤ s) :
    ∃ n : ℕ, u32 (min (i32 (u32 (s - e))) m) = n ∧ (n : ℤ) ≤ m ∧ e + n ≤ s ∧
      i32 (u32 (e + n)) = e + n := by
  rcases Int.eq_ofNat_of_zero_le he with ⟨c, rfl⟩
  have hrest : i32 (u32 ((s : ℤ) - c)) = (s - c : ℕ) := by
    rw [show (s : ℤ) - c = (s - c : ℕ) by omega, u32_of_lt (by omega), i32_of_lt (by omega)]
  refine ⟨min (s - c) m.toNat, ?_, by omega, by omega, ?_⟩
  · rw [hrest, show min ((s - c : ℕ) : ℤ) m = (min (s - c) m.toNat : ℕ) by omega,
      u32_of_lt (by omega)]
  · rw [← Nat.cast_add, u32_of_lt (by omega), i32_of_lt (by omega)]

variable {tracker : DqplbSeqTracker} {x : IbvSendWr}

theorem Stamped.notifies (h : Stamped v w x tracker)
    (hnum : v.dqplbSeqTracker.sendNext_ < kSeqNumMask) (hscheme : v.loadBalancingScheme_ = .DQPLB)
    (hop : w.wr.opcode = .IBV_WR_RDMA_WRITE_WITH_IMM) (id : ℕ) :
    SendWqe.notifies ⟨x, id⟩ = decide (w.remainingMsgCnt = 1) := by
  rw [Stamped, if_pos ⟨hop, hscheme⟩, getSendImm_eq (Nat.mod_eq_of_lt hnum).symm,
    Prod.mk.injEq] at h
  simp only [SendWqe.notifies, h.1, decide_true, Bool.true_and, h.2.1, immOf_notify]

theorem Stamped.numbered (h : Stamped v w x tracker)
    (hnum : v.dqplbSeqTracker.sendNext_ < kSeqNumMask) : tracker.sendNext_ < kSeqNumMask := by
  rw [Stamped] at h
  split at h
  · rw [getSendImm_eq (Nat.mod_eq_of_lt hnum).symm, Prod.mk.injEq] at h
    rw [h.2.2]
    exact Nat.mod_lt _ (by decide)
  · rw [h.2]
    exact hnum

theorem InLimits.segment (hlen : g.length < 2 ^ 31) (hg : wr.sg_list = some g)
    (h : InLimits old wr g total v) (hs : Spreading v)
    (hpend : v.pendingSendVirtualWrQue_ = w :: rest) (hok : v.postSegment i w rest = .ok v') :
    InLimits old wr g total v' := by
  have hcut := hs.pending w (by simp [hpend])
  rcases postSegment_of_ok hok with ⟨q, x, g', tracker, ns, hq, hg', _, _, hsg, hstamp, _, rfl⟩
  rcases h.pending with hnil | ⟨w', hcons, rfl, hoff, hle, hextra⟩
  · rw [hpend] at hnil
    cases hnil
  rw [hpend, List.cons.injEq] at hcons
  rcases hcons with ⟨rfl, rfl⟩
  rw [hg, Option.some.injEq] at hg'
  subst hg'
  rcases piece_le h.size hlen hoff hle with ⟨n, hn, hfit, hend, hsum⟩
  rcases h.log with ⟨new, hperm, hsizes, hcount, hnotify⟩
  generalize hz : (⟨x, w.wr.wr_id⟩ : SendWqe) = z
  have hzx : z.wr = x := by rw [← hz]
  have hnew : ((v.physicalQps_.set i (q.postSend x w.wr.wr_id)).map
      fun q => q.sq.posted).flatten.Perm (old ++ (new ++ [z])) := by
    have hall : ((v.physicalQps_.set i (q.postSend x w.wr.wr_id)).map
      fun q => q.sq.posted).flatten.Perm (v.dataSegments ++ [z]) := map_set_perm hq (by rw [← hz]; rfl)
    rw [← List.append_assoc]
    exact hall.trans (hperm.append_right _)
  have hsizes' : ∀ y ∈ new ++ [z], ∀ s ∈ y.wr.sg_list, (s.length : ℤ) ≤ v.maxMsgSize_ := by
    intro y hy s hmem
    rcases List.mem_append.mp hy with hy | hy
    · exact hsizes y hy s hmem
    · rw [List.mem_singleton.mp hy, Option.mem_def, hzx, hsg, Option.some.injEq] at hmem
      rw [← hmem]
      simp only [hn]
      exact hfit
  have hleft := hcut.left
  have hmany := hcut.extra
  rw [hpend] at hcount hnotify
  simp only [unposted, List.map_cons, List.map_nil, List.sum_cons, List.sum_nil] at hcount
  have hbit : v.loadBalancingScheme_ = .DQPLB → w.wr.opcode = .IBV_WR_RDMA_WRITE_WITH_IMM →
      (new ++ [z]).countP SendWqe.notifies = if w.remainingMsgCnt = 1 then 1 else 0 := by
    intro hscheme hop
    have hone := hnotify hscheme hop
    rw [List.length_singleton] at hone
    rw [List.countP_append, List.countP_singleton, ← hz, hstamp.notifies h.numbered hscheme hop]
    simp only [decide_eq_true_eq]
    omega
  have hplain : v.loadBalancingScheme_ = .DQPLB → ¬ w.sendExtraNotifyImm := by
    intro hscheme hex
    have hspray := (hextra.mp hex).2
    rw [hscheme] at hspray
    cases hspray
  refine ⟨h.size, hstamp.numbered h.numbered, ?_, new ++ [z], hnew, hsizes', ?_, ?_⟩
  · by_cases hlast : w.remainingMsgCnt - 1 = 0 ∨ w.remainingMsgCnt - 1 = 1 ∧ w.sendExtraNotifyImm
    · exact Or.inl (if_pos hlast)
    · right
      refine ⟨_, if_neg hlast, rfl, ?_, ?_, hextra⟩
      · simp only [hn, hsum]
        omega
      · simp only [hn, hsum]
        exact hend
  · by_cases hlast : w.remainingMsgCnt - 1 = 0 ∨ w.remainingMsgCnt - 1 = 1 ∧ w.sendExtraNotifyImm
    · simp only [advanced, if_pos hlast, unposted, List.map_nil, List.sum_nil, List.length_append,
        List.length_singleton]
      rcases hlast with hone | ⟨htwo, hex⟩
      · split at hcount
        · rename_i hex
          have hgt := hmany hex
          omega
        · omega
      · rw [if_pos hex] at hcount
        omega
    · simp only [advanced, if_neg hlast, unposted, List.map_cons, List.map_nil, List.sum_cons,
        List.sum_nil, List.length_append, List.length_singleton]
      omega
  · intro hscheme hop
    have hcountP := hbit hscheme hop
    rw [hcountP]
    by_cases hone : w.remainingMsgCnt = 1
    · simp only [advanced, hone, sub_self, true_or, if_true, List.length_nil]
    · have hstay :
          ¬ (w.remainingMsgCnt - 1 = 0 ∨ w.remainingMsgCnt - 1 = 1 ∧ w.sendExtraNotifyImm) := by
        rintro (hzero | ⟨_, hex⟩)
        · omega
        · exact hplain hscheme hex
      simp only [advanced, if_neg hstay, if_neg hone, List.length_singleton]

theorem segmentInvariant_inLimits (hlen : g.length < 2 ^ 31) (hg : wr.sg_list = some g)
    (old : List SendWqe) (total : ℕ) : SegmentInvariant (InLimits old wr g total) where
  next _ _ h := ⟨h.size, h.numbered, h.pending, h.log⟩
  segment _ _ _ _ _ hs h hpend _ _ hok := h.segment hlen hg hs hpend hok

theorem InLimits.of_same (h : InLimits old wr g total v) (hsame : SameData v v')
    (hscheme : v'.loadBalancingScheme_ = v.loadBalancingScheme_)
    (htracker : v'.dqplbSeqTracker = v.dqplbSeqTracker) : InLimits old wr g total v' := by
  have hlog : v'.dataSegments = v.dataSegments := by
    rw [dataSegments, hsame.posted]
    rfl
  refine ⟨?_, ?_, ?_, ?_⟩
  · rw [hsame.size]
    exact h.size
  · rw [htracker]
    exact h.numbered
  · rw [hsame.pending, Extra, hscheme]
    exact h.pending
  · rw [hlog, hsame.size, hsame.pending, hscheme]
    exact h.log

end IbvVirtualQp

namespace Endpoint

open IbvVirtualQp (InLimits Extra InRange Supported)

/-! ### A send on its own -/

/-- Nothing is in flight and nothing waits. -/
structure Idle (e : Endpoint) : Prop where
  sending : e.vqp.Sending
  quiet : ∀ q ∈ e.vqp.qps, q.sq.outstanding = []
  pending : e.vqp.pendingSendVirtualWrQue_ = []
  notifies : e.vqp.pendingSendNotifyVirtualWrQue_ = []
  numbered : e.vqp.dqplbSeqTracker.sendNext_ < kSeqNumMask

/-- The send completions that have not been reported. -/
def sendQue (e : Endpoint) : StableDeque VirtualWc := (e.cqs e.sendCq).pendingSendVirtualWcQue_

/-- The virtual completion of the last send. -/
def lastWc (e : Endpoint) : Option VirtualWc := e.sendQue.get? e.sendQue.back

def complete (e : Endpoint) (c : Option ℕ × IbvWc) : Except Fault Endpoint :=
  e.sendCompletion c.1 c.2

/-- The state `s` after the request `wr` was posted in `e` and some of its segments have completed:
at most `bound` segments are posted, each of at most the size of a message, the virtual completion
counts down to zero, and without work in flight the request is finished and notified once. -/
structure Within (e : Endpoint) (wr : IbvSendWr) (bound : ℕ) (s : Endpoint) : Prop where
  segments : ∃ new, s.vqp.dataSegments.Perm (e.vqp.dataSegments ++ new) ∧ new.length ≤ bound ∧
    ∀ x ∈ new, ∀ g ∈ x.wr.sg_list, (g.length : ℤ) ≤ e.vqp.maxMsgSize_
  counter : ∃ w ∈ s.lastWc, w.wr_id = wr.wr_id ∧ 0 ≤ w.remainingMsgCnt ∧
    ((∀ q ∈ s.vqp.qps, q.sq.outstanding = []) → w.remainingMsgCnt = 0)
  settled : (∀ q ∈ s.vqp.qps, q.sq.outstanding = []) → s.vqp.pendingSendVirtualWrQue_ = [] ∧
    s.vqp.pendingSendNotifyVirtualWrQue_ = [] ∧
    (wr.opcode = .IBV_WR_RDMA_WRITE_WITH_IMM → s.vqp.notices = e.vqp.notices + 1)

/-- Posting the request, and all that can complete after it. -/
def Exact (e : Endpoint) (wr : IbvSendWr) : Prop :=
  ∃ e' bound, e.postSend wr = .ok e' ∧ ∀ cs : List (Option ℕ × IbvWc),
    (∀ c ∈ cs, (e.vqp.qp? c.1).isSome) → ∃ s, run complete e' cs = .ok s ∧ Within e wr bound s

/-- A supported request that is reported, of any length that the source can represent. -/
structure Representable (wr : IbvSendWr) : Prop where
  num_sge : wr.num_sge = 1
  sg : ∃ g ∈ wr.sg_list, g.length < 2 ^ 32
  opcode : Supported wr.opcode
  reported : wr.Reported

/-- The parts of the request `wr`, posted in `e` on its own, are accounted for. -/
structure Counting (e : Endpoint) (wr : IbvSendWr) (g : IbvSge) (total : ℕ) (s : Endpoint) : Prop where
  limits : InLimits e.vqp.dataSegments wr g total s.vqp
  sending : s.vqp.Sending
  stopped : s.vqp.Stopped
  size : s.vqp.maxMsgSize_ = e.vqp.maxMsgSize_
  room : s.vqp.maxMsgCntPerQp_ = e.vqp.maxMsgCntPerQp_
  scheme : s.vqp.loadBalancingScheme_ = e.vqp.loadBalancingScheme_
  qps : s.vqp.physicalQps_.length = e.vqp.physicalQps_.length
  alone : ∀ id, wr.wr_id ≠ id → s.vqp.sendLeft id = 0
  counter : ∃ w, (s.cqs s.sendCq).virtualWrIdToVirtualWc_ wr.wr_id =
      some (some (.send s.sendQue.back)) ∧ s.lastWc = some w ∧ w.wr_id = wr.wr_id ∧
    w.remainingMsgCnt = s.vqp.sendLeft wr.wr_id ∧ (w.sendExtraNotifyImm ↔ e.vqp.Extra wr)
  notices : e.vqp.Extra wr → s.vqp.notices + s.vqp.unnotified.length = e.vqp.notices + 1

/-- The notification is posted when it is all that is left. -/
structure Underway (e : Endpoint) (wr : IbvSendWr) (g : IbvSge) (total : ℕ) (s : Endpoint) : Prop
    extends Counting e wr g total s where
  unnotified : s.vqp.unnotified = [] ∧ (e.vqp.Extra wr → s.vqp.sendLeft wr.wr_id ≤ 1) ∨
    s.vqp.unnotified = [wr] ∧ e.vqp.Extra wr ∧ 2 ≤ s.vqp.sendLeft wr.wr_id

variable {e s : Endpoint} {wr : IbvSendWr} {g : IbvSge} {total : ℕ} {k : Option ℕ}

theorem Idle.sendLeft (h : e.Idle) (id : ℕ) : e.vqp.sendLeft id = 0 := by
  have hfly : IbvVirtualQp.inFlight IbvQp.physicalSendWrStatus_ e.vqp id = 0 := by
    apply List.sum_eq_zero
    intro n hn
    rcases List.mem_map.mp hn with ⟨q, hq, rfl⟩
    rw [h.sending.mirror q hq, h.quiet q hq]
    rfl
  rw [IbvVirtualQp.sendLeft, h.pending, h.notifies, hfly]
  rfl

theorem notices_of_spray {v v' : IbvVirtualQp} (h : v.Extra wr)
    (hscheme : v'.loadBalancingScheme_ = v.loadBalancingScheme_)
    (hposted : v'.notifyQp_.sq.posted = v.notifyQp_.sq.posted) : v'.notices = v.notices := by
  simp only [IbvVirtualQp.notices, hscheme, h.2, hposted]

/-! ### Posting -/

theorem Idle.postSend (h : e.Idle) (hm : 1 ≤ e.vqp.maxMsgSize_) (hmax : e.vqp.maxMsgSize_ < 2 ^ 31)
    (hwr : InRange wr) (hreported : wr.Reported) (hover : ¬ e.vqp.Overflows wr)
    (hg : wr.sg_list = some g) :
    ∃ s, e.postSend wr = .ok s ∧
      Underway e wr g (IbvVirtualQp.segments e.vqp.maxMsgSize_ g.length) s := by
  have hlen : 1 ≤ g.length ∧ g.length < 2 ^ 31 := by
    rcases hwr.sg with ⟨g', hg', hlen⟩
    rw [Option.mem_def, hg, Option.some.injEq] at hg'
    rw [hg']
    exact hlen
  have hfit : wr.opcode = .IBV_WR_RDMA_WRITE_WITH_IMM ∧ e.vqp.loadBalancingScheme_ = .SPRAY →
      (IbvVirtualQp.segments e.vqp.maxMsgSize_ g.length : ℤ) < INT_MAX := by
    rintro ⟨hop, hscheme⟩
    rw [INT_MAX]
    by_contra hge
    have hle := IbvVirtualQp.segments_le hm hlen.1
    refine hover ⟨hop, hscheme, ?_, g, hg, by omega⟩
    by_contra hne
    have hlt := IbvVirtualQp.segments_lt (m := e.vqp.maxMsgSize_) (by omega) hlen.1 hlen.2
    omega
  rcases h.sending.toSpreading.postParts hm hwr.num_sge hwr.opcode hg
    (IbvVirtualQp.segmentable hm hmax hlen.1 hlen.2) hfit with
    ⟨n, extra, v, hpost, hn, hparts, hmany, hextra, hs, hmoved, hstop⟩
  have hcopy : (VirtualSendWr.ofWr wr n extra).wr = wr := by
    simp [VirtualSendWr.ofWr, hg, hwr.num_sge]
  have hcount := hparts g hg
  have hleft : ∀ id, v.sendLeft id = if wr.wr_id = id then n else 0 := by
    intro id
    rw [hmoved.left, IbvVirtualQp.sendLeft_push, h.sendLeft, share, hcopy, zero_add]
    rfl
  have hunn : v.unnotified = if extra then [wr] else [] := by
    rw [hmoved.unnotified, IbvVirtualQp.unnotified, h.pending, h.notifies]
    have hflag : (VirtualSendWr.ofWr wr n extra).sendExtraNotifyImm = extra := rfl
    cases extra <;> simp [hflag, hcopy]
  have hstart : InLimits e.vqp.dataSegments wr g
      (IbvVirtualQp.segments e.vqp.maxMsgSize_ g.length) { e.vqp with pendingSendVirtualWrQue_ :=
        e.vqp.pendingSendVirtualWrQue_ ++ [VirtualSendWr.ofWr wr n extra] } := by
    refine ⟨hm, h.numbered, Or.inr ⟨_, ?_, hcopy, le_rfl, Int.natCast_nonneg _, hextra⟩, [], ?_, ?_, ?_,
      ?_⟩
    · simp only [h.pending, List.nil_append]
    · rw [List.append_nil]
      exact List.Perm.refl _
    · simp
    · have hunposted : IbvVirtualQp.unposted [VirtualSendWr.ofWr wr n extra] =
          n - (if extra then 1 else 0) + 0 := rfl
      simp only [h.pending, List.nil_append, hunposted, List.length_nil]
      omega
    · intro _ _
      simp only [h.pending, List.nil_append, List.countP_nil, List.length_singleton]
  have hsig : wr.signaled ∨ wr.opcode = .IBV_WR_RDMA_WRITE_WITH_IMM := hreported.symm
  have hok : e.postSend wr = .ok ({ e with vqp := v }.submitRequestToVirtualCq
      (.SEND v.virtualQpNum_ n wr extra)) := by
    simp only [Endpoint.postSend, hpost, bind, Except.bind]
  refine ⟨_, hok, ?_⟩
  simp only [submitRequestToVirtualCq, IbvVirtualCq.processRequest, if_pos hsig]
  exact
    { limits := hmoved.keeps _ (IbvVirtualQp.segmentInvariant_inLimits hlen.2 hg _ _) hstart
      sending := IbvVirtualQp.Sending.moved hmoved hs
        (h.sending.toSignaled.push (by rw [hcopy]; exact hreported))
      stopped := hstop
      size := hmoved.maxMsgSize
      room := hmoved.maxMsgCnt
      scheme := hmoved.scheme
      qps := hmoved.length
      alone := by
        intro id hne
        change v.sendLeft id = 0
        rw [hleft, if_neg hne]
      counter := by
        refine ⟨.fresh wr.wr_id v.virtualQpNum_ n extra, ?_, ?_, rfl, ?_, hextra⟩
        · simp only [updateCq, sendQue, Function.update_self]
        · simp only [lastWc, sendQue, updateCq, Function.update_self, StableDeque.get?_back]
        · change n = v.sendLeft wr.wr_id
          rw [hleft, if_pos rfl]
      notices := by
        intro hspray
        have hsame : v.notices = e.vqp.notices := by
          apply notices_of_spray hspray hmoved.scheme
          rw [hmoved.notifyQp]
        change v.notices + v.unnotified.length = e.vqp.notices + 1
        rw [hsame, hunn, if_pos (hextra.mpr hspray), List.length_singleton]
      unnotified := by
        change v.unnotified = [] ∧ (e.vqp.Extra wr → v.sendLeft wr.wr_id ≤ 1) ∨
          v.unnotified = [wr] ∧ e.vqp.Extra wr ∧ 2 ≤ v.sendLeft wr.wr_id
        rw [hunn, hleft, if_pos rfl]
        cases hcase : extra with
        | true =>
          have hgt := hmany hcase
          exact Or.inr ⟨if_pos rfl, hextra.mp hcase, by omega⟩
        | false =>
          left
          refine ⟨if_neg (by decide), ?_⟩
          intro hspray
          have hset := hextra.mpr hspray
          rw [hcase] at hset
          cases hset }

/-! ### Completing -/

theorem charge_last {cq : IbvVirtualCq} {id : ℕ} {w : VirtualWc} (pwc : IbvWc)
    (hmap : cq.virtualWrIdToVirtualWc_ id = some (some (.send cq.pendingSendVirtualWcQue_.back)))
    (hget : cq.pendingSendVirtualWcQue_.get? cq.pendingSendVirtualWcQue_.back = some w) :
    ∃ cq', cq.charge id pwc = .ok (w.charge pwc, cq') ∧
      cq'.virtualWrIdToVirtualWc_ = cq.virtualWrIdToVirtualWc_ ∧
      cq'.pendingSendVirtualWcQue_.back = cq.pendingSendVirtualWcQue_.back ∧
      cq'.pendingSendVirtualWcQue_.get? cq.pendingSendVirtualWcQue_.back = some (w.charge pwc) := by
  have hpop := (StableDeque.get?_eq_some.mp hget).1
  have hok : cq.charge id pwc = .ok (w.charge pwc, cq.modify (fun w => w.charge pwc)
      (.send cq.pendingSendVirtualWcQue_.back)) := by
    simp only [IbvVirtualCq.charge, hmap, IbvVirtualCq.deref, hget]
  refine ⟨_, hok, rfl, ?_, ?_⟩
  · simp only [IbvVirtualCq.modify, StableDeque.back, StableDeque.modify, List.length_modify]
  · simp only [IbvVirtualCq.modify, StableDeque.get?_modify _ _ _ _ hpop, hget, Option.map_some,
      if_true]

theorem Counting.completed (hlen : g.length < 2 ^ 31) (hg : wr.sg_list = some g)
    (h : Counting e wr g total s) {q : IbvQp} (hq : s.vqp.qp? k = some q) {x : SendWqe}
    {xs : List SendWqe} (hout : q.sq.outstanding = x :: xs) (wc : IbvWc) :
    ∃ v cq extra, Counting e wr g total ({ s with vqp := v }.updateCq s.sendCq cq) ∧
      v.unnotified = s.vqp.unnotified ∧
      v.sendLeft wr.wr_id = s.vqp.sendLeft wr.wr_id - 1 ∧ (extra = true ↔ e.vqp.Extra wr) ∧
      (v.idxOfQpNum q.qp_num = .ok k ∧ ∃ q', v.qp? k = some q') ∧
      s.sendCompletion k wc = if v.sendLeft wr.wr_id = 1 ∧ extra then
          (v.processRequest ⟨.SEND_NOTIFY, wr.wr_id, q.qp_num, 0⟩).map fun r =>
            { s with vqp := r.2 }.updateCq s.sendCq cq
        else .ok ({ s with vqp := v }.updateCq s.sendCq cq) := by
  rcases IbvVirtualQp.completeSend_spec h.sending hq hout with
    ⟨sq, v, hcomp, hposted, hproc, hs, hmoved, hleft, hstop⟩
  have hid : x.virtualWrId = wr.wr_id := by
    by_contra hne
    have hpos := h.sending.toSpreading.sendLeft_pos (IbvVirtualQp.mem_qps hq)
      (hout ▸ List.mem_cons_self : x ∈ q.sq.outstanding)
    rw [h.alone _ (Ne.symm hne)] at hpos
    exact absurd hpos (Int.lt_irrefl 0)
  rw [hid] at hproc hleft
  have hone := hleft wr.wr_id
  rw [if_pos rfl] at hone
  rcases h.counter with ⟨w, hmap, hlast, hwid, hwleft, hextra⟩
  rcases charge_last { wc with wr_id := x.wr.wr_id, qp_num := q.qp_num, opcode := wcOpcode x.wr.opcode }
    hmap hlast with ⟨cq, hcharge, hmap', hback, hget⟩
  have heq := sendCompletion_eq hq hcomp wc hproc hcharge
  rw [VirtualWc.charge_remainingMsgCnt, VirtualWc.charge_sendExtraNotifyImm, hwleft, ← hone] at heq
  have hsame : IbvVirtualQp.SameData s.vqp
      (s.vqp.setQp k (IbvVirtualQp.retireSend q sq (xs.map SendWqe.status))) :=
    IbvVirtualQp.sameData_setQp hq rfl hposted
  have hkeep : (s.vqp.setQp k (IbvVirtualQp.retireSend q sq (xs.map SendWqe.status))).unnotified =
      s.vqp.unnotified ∧
      (s.vqp.setQp k (IbvVirtualQp.retireSend q sq (xs.map SendWqe.status))).maxMsgCntPerQp_ =
        s.vqp.maxMsgCntPerQp_ ∧
      (s.vqp.setQp k (IbvVirtualQp.retireSend q sq (xs.map SendWqe.status))).loadBalancingScheme_ =
        s.vqp.loadBalancingScheme_ ∧
      (s.vqp.setQp k (IbvVirtualQp.retireSend q sq (xs.map SendWqe.status))).dqplbSeqTracker =
        s.vqp.dqplbSeqTracker ∧
      (s.vqp.setQp k (IbvVirtualQp.retireSend q sq
        (xs.map SendWqe.status))).notifyQp_.sq.posted = s.vqp.notifyQp_.sq.posted ∧
      (s.vqp.setQp k (IbvVirtualQp.retireSend q sq (xs.map SendWqe.status))).physicalQps_.length =
        s.vqp.physicalQps_.length := by
    cases k with
    | none =>
      cases hq
      exact ⟨rfl, rfl, rfl, rfl, hposted, rfl⟩
    | some i => exact ⟨rfl, rfl, rfl, rfl, rfl, List.length_set⟩
  rcases hkeep with ⟨hunn, hroom, hscheme, htracker, hnotify, hqps⟩
  refine ⟨v, cq, w.sendExtraNotifyImm, ?_, hmoved.unnotified.trans hunn, hone, hextra, ?_, heq⟩
  · exact
      { limits := hmoved.keeps _ (IbvVirtualQp.segmentInvariant_inLimits hlen hg _ _)
          (h.limits.of_same hsame hscheme htracker)
        sending := hs
        stopped := hstop h.stopped
        size := (hmoved.maxMsgSize.trans hsame.size).trans h.size
        room := (hmoved.maxMsgCnt.trans hroom).trans h.room
        scheme := (hmoved.scheme.trans hscheme).trans h.scheme
        qps := (hmoved.length.trans hqps).trans h.qps
        alone := by
          intro id hne
          change v.sendLeft id = 0
          rw [hleft, if_neg hne, h.alone id hne]
          rfl
        counter := by
          refine ⟨w.charge { wc with
            wr_id := x.wr.wr_id, qp_num := q.qp_num, opcode := wcOpcode x.wr.opcode }, ?_, ?_, hwid, ?_,
            hextra⟩
          · simp only [updateCq, sendQue, Function.update_self, hmap', hback]
            exact hmap
          · simp only [lastWc, sendQue, updateCq, Function.update_self, hback]
            exact hget
          · rw [VirtualWc.charge_remainingMsgCnt, hwleft]
            exact hone.symm
        notices := by
          intro hspray
          have hextra' : s.vqp.Extra wr := by
            rw [Extra, h.scheme]
            exact hspray
          have hnotices : v.notices = s.vqp.notices := by
            apply notices_of_spray hextra' (hmoved.scheme.trans hscheme)
            rw [hmoved.notifyQp, hnotify]
          change v.notices + v.unnotified.length = e.vqp.notices + 1
          rw [hnotices, hmoved.unnotified, hunn]
          exact h.notices hspray }
  · have hget : (s.vqp.setQp k (IbvVirtualQp.retireSend q sq (xs.map SendWqe.status))).qp? k =
        some (IbvVirtualQp.retireSend q sq (xs.map SendWqe.status)) := by
      rw [IbvVirtualQp.qp?_setQp hq, if_pos rfl]
    have hindex := hmoved.index (h.sending.wired.of_eq hsame.route hsame.nums) hget
    exact hindex

theorem Counting.notified (h : Counting e wr g total s) {w : VirtualSendWr} {ws : List VirtualSendWr}
    (hfront : s.vqp.pendingSendNotifyVirtualWrQue_ = w :: ws) (hextra : e.vqp.Extra wr) :
    ∃ v, s.vqp.postSendNotifyImm = .ok v ∧ Counting e wr g total { s with vqp := v } ∧
      s.vqp.unnotified = w.wr :: v.unnotified ∧ v.sendLeft wr.wr_id = s.vqp.sendLeft wr.wr_id := by
  rcases IbvVirtualQp.postSendNotifyImm_spec h.sending hfront with ⟨x, v, hpost, hqp, _, _, _, hop, hs,
    hleft, hunn, hqps, hpend, _, _, hroom, hsize, hscheme⟩
  have hspray : s.vqp.loadBalancingScheme_ = .SPRAY := h.scheme.trans hextra.2
  have hnotices : v.notices = s.vqp.notices + 1 := by
    have hmore : v.notifyQp_.sq.posted = s.vqp.notifyQp_.sq.posted ++ [⟨x, w.wr.wr_id⟩] := by
      rw [hqp]
      rfl
    simp only [IbvVirtualQp.notices, hscheme, hspray, hmore, List.countP_append, List.countP_singleton,
      hop, decide_true, if_true]
  refine ⟨v, hpost, ?_, hunn, hleft _⟩
  simp only [IbvVirtualQp.postSendNotifyImm, hfront, Except.ok.injEq] at hpost
  exact
    { limits := by
        rw [← hpost]
        exact ⟨h.limits.size, h.limits.numbered, h.limits.pending, h.limits.log⟩
      sending := hs
      stopped := by
        intro hne
        have hstop := h.stopped
        change v.pendingSendVirtualWrQue_ ≠ [] at hne
        rw [hpend] at hne
        change ∃ q ∈ v.physicalQps_, ¬ v.hasRoom q.physicalSendWrStatus_.length
        simp only [hqps, IbvVirtualQp.hasRoom, hroom]
        exact hstop hne
      size := hsize.trans h.size
      room := hroom.trans h.room
      scheme := hscheme.trans h.scheme
      qps := by
        change v.physicalQps_.length = _
        rw [hqps]
        exact h.qps
      alone := by
        intro id hne
        exact (hleft id).trans (h.alone id hne)
      counter := by
        rcases h.counter with ⟨u, hmap, hlast, hid, hcount, hflag⟩
        exact ⟨u, hmap, hlast, hid, hcount.trans (hleft _).symm, hflag⟩
      notices := by
        intro _
        have hcount := h.notices hextra
        rw [hunn, List.length_cons] at hcount
        change v.notices + v.unnotified.length = _
        omega }

theorem Underway.step (hlen : g.length < 2 ^ 31) (hg : wr.sg_list = some g)
    (h : Underway e wr g total s) {c : Option ℕ × IbvWc} (hc : (s.vqp.qp? c.1).isSome) :
    ∃ s', s.complete c = .ok s' ∧ Underway e wr g total s' := by
  rcases Option.isSome_iff_exists.mp hc with ⟨q, hq⟩
  cases hout : q.sq.outstanding with
  | nil => exact ⟨s, sendCompletion_of_empty hq hout c.2, h⟩
  | cons x xs =>
    rcases h.toCounting.completed hlen hg hq hout c.2 with
      ⟨v, cq, extra, hcount, hunn, hleft, hextra, ⟨hidx, q', hqp⟩, heq⟩
    by_cases hdue : v.sendLeft wr.wr_id = 1 ∧ extra
    · have hspray := hextra.mp hdue.2
      have hone : s.vqp.unnotified = [wr] := by
        rcases h.unnotified with ⟨_, hle⟩ | ⟨hone, _⟩
        · have hle := hle hspray
          omega
        · exact hone
      have hmem : wr.wr_id ∈ v.unnotified.map IbvSendWr.wr_id := by
        rw [hunn, hone]
        exact List.mem_singleton.mpr rfl
      rcases hcount.sending.toSpreading.mem_notifyQue hdue.1 hmem with ⟨y, hy, _⟩
      rcases List.exists_cons_of_ne_nil (List.ne_nil_of_mem hy) with ⟨w, ws, hfront⟩
      rcases hcount.notified hfront hspray with ⟨v', hpost, hcount', hunn', hleft'⟩
      change v.unnotified = w.wr :: v'.unnotified at hunn'
      rw [hunn, hone, List.cons.injEq] at hunn'
      change v.postSendNotifyImm = .ok v' at hpost
      refine ⟨{ s with vqp := v' }.updateCq s.sendCq cq, ?_, hcount', ?_⟩
      · rw [Endpoint.complete, heq, if_pos hdue, processRequest_send_notify hidx hqp hfront,
          if_pos (by rw [← hunn'.1]), hpost]
        rfl
      · refine Or.inl ⟨hunn'.2.symm, fun _ => ?_⟩
        change v'.sendLeft wr.wr_id = v.sendLeft wr.wr_id at hleft'
        change v'.sendLeft wr.wr_id ≤ 1
        omega
    · refine ⟨{ s with vqp := v }.updateCq s.sendCq cq, ?_, hcount, ?_⟩
      · rw [Endpoint.complete, heq, if_neg hdue]
      · change v.unnotified = [] ∧ (e.vqp.Extra wr → v.sendLeft wr.wr_id ≤ 1) ∨
          v.unnotified = [wr] ∧ e.vqp.Extra wr ∧ 2 ≤ v.sendLeft wr.wr_id
        rw [hunn]
        rcases h.unnotified with ⟨hnone, hle⟩ | ⟨hone, hspray, htwo⟩
        · refine Or.inl ⟨hnone, fun hspray => ?_⟩
          have hle := hle hspray
          omega
        · refine Or.inr ⟨hone, hspray, ?_⟩
          have hne : v.sendLeft wr.wr_id ≠ 1 := fun heq => hdue ⟨heq, hextra.mpr hspray⟩
          omega

/-! ### The whole request -/

theorem Underway.settled (h : Underway e wr g total s)
    (hcnt : INT_MIN ≤ e.vqp.maxMsgCntPerQp_ ∧ e.vqp.maxMsgCntPerQp_ ≤ INT_MAX)
    (hzero : e.vqp.maxMsgCntPerQp_ ≠ 0) (hquiet : ∀ q ∈ s.vqp.qps, q.sq.outstanding = []) :
    s.vqp.pendingSendVirtualWrQue_ = [] ∧ s.vqp.pendingSendNotifyVirtualWrQue_ = [] ∧
      s.vqp.sendLeft wr.wr_id = 0 ∧ s.vqp.unnotified = [] := by
  have hs := h.sending
  have hstatus : ∀ q ∈ s.vqp.qps, q.physicalSendWrStatus_ = [] := by
    intro q hq
    rw [hs.mirror q hq, hquiet q hq, List.map_nil]
  have hfly : ∀ id, IbvVirtualQp.inFlight IbvQp.physicalSendWrStatus_ s.vqp id = 0 := by
    intro id
    apply List.sum_eq_zero
    intro n hn
    rcases List.mem_map.mp hn with ⟨q, hq, rfl⟩
    rw [hstatus q hq, statusCount_nil]
  have hpend : s.vqp.pendingSendVirtualWrQue_ = [] := by
    by_contra hne
    rcases h.stopped hne with ⟨q, hq, hroom⟩
    rw [hstatus q (List.mem_cons_of_mem _ hq), IbvVirtualQp.hasRoom, decide_eq_true_eq,
      List.length_nil, h.room] at hroom
    simp only [u64, INT_MIN, INT_MAX] at hroom hcnt
    omega
  have hunn : s.vqp.unnotified = s.vqp.pendingSendNotifyVirtualWrQue_.map VirtualSendWr.wr := by
    simp [IbvVirtualQp.unnotified, hpend]
  rcases h.unnotified with ⟨hnone, _⟩ | ⟨hone, _, htwo⟩
  · have hnotify : s.vqp.pendingSendNotifyVirtualWrQue_ = [] :=
      List.map_eq_nil_iff.mp (hunn.symm.trans hnone)
    refine ⟨hpend, hnotify, ?_, hnone⟩
    simp only [IbvVirtualQp.sendLeft, hpend, hnotify, waiting_nil, hfly]
    rfl
  · rw [hunn, List.map_eq_singleton_iff] at hone
    rcases hone with ⟨w, hw, rfl⟩
    have hleft := (hs.notifies w (by simp [hw])).left
    simp only [IbvVirtualQp.sendLeft, hpend, hw, waiting_cons, waiting_nil, hfly, share, hleft,
      if_true] at htwo
    omega

theorem Underway.within (h : Underway e wr g total s)
    (hcnt : INT_MIN ≤ e.vqp.maxMsgCntPerQp_ ∧ e.vqp.maxMsgCntPerQp_ ≤ INT_MAX)
    (hzero : e.vqp.maxMsgCntPerQp_ ≠ 0) : Within e wr total s where
  segments := by
    rcases h.limits.log with ⟨new, hperm, hsizes, hcount, _⟩
    have hnonneg : 0 ≤ IbvVirtualQp.unposted s.vqp.pendingSendVirtualWrQue_ := by
      apply List.sum_nonneg
      intro n hn
      rcases List.mem_map.mp hn with ⟨w, hw, rfl⟩
      have hcut := h.sending.pending w hw
      have hleft := hcut.left
      have hmany := hcut.extra
      split
      · rename_i hex
        have hgt := hmany hex
        omega
      · omega
    rw [h.size] at hsizes
    exact ⟨new, hperm, by omega, hsizes⟩
  counter := by
    rcases h.counter with ⟨w, _, hlast, hid, hleft, _⟩
    refine ⟨w, hlast, hid, ?_, ?_⟩
    · rw [hleft]
      exact h.sending.toSpreading.sendLeft_nonneg _
    · intro hquiet
      rw [hleft]
      exact (h.settled hcnt hzero hquiet).2.2.1
  settled := by
    intro hquiet
    rcases h.settled hcnt hzero hquiet with ⟨hpend, hnotify, _, hunn⟩
    refine ⟨hpend, hnotify, fun hop => ?_⟩
    cases hscheme : e.vqp.loadBalancingScheme_ with
    | SPRAY =>
      have hcount := h.notices ⟨hop, hscheme⟩
      rw [hunn, List.length_nil] at hcount
      exact hcount
    | DQPLB =>
      rcases h.limits.log with ⟨new, hperm, _, _, hnotice⟩
      have hone := hnotice (h.scheme.trans hscheme) hop
      rw [hpend, List.length_nil] at hone
      have hall := hperm.countP_eq SendWqe.notifies
      rw [List.countP_append] at hall
      simp only [IbvVirtualQp.notices, h.scheme, hscheme, hall]
      omega

theorem Idle.exact_of_inRange (h : e.Idle) (hm : 1 ≤ e.vqp.maxMsgSize_)
    (hmax : e.vqp.maxMsgSize_ < 2 ^ 31)
    (hcnt : INT_MIN ≤ e.vqp.maxMsgCntPerQp_ ∧ e.vqp.maxMsgCntPerQp_ ≤ INT_MAX)
    (hzero : e.vqp.maxMsgCntPerQp_ ≠ 0) (hwr : InRange wr) (hreported : wr.Reported)
    (hover : ¬ e.vqp.Overflows wr) : Exact e wr := by
  rcases hwr.sg with ⟨g, hg, _, hlen⟩
  rcases h.postSend hm hmax hwr hreported hover hg with ⟨e', hpost, hstart⟩
  refine ⟨e', IbvVirtualQp.segments e.vqp.maxMsgSize_ g.length, hpost, ?_⟩
  intro cs hcs
  have hadm : Admissible complete (fun _ _ c => (e.vqp.qp? c.1).isSome) [] e' cs :=
    admissible_of_forall [] e' hcs
  have hstep : ∀ (past : List (Option ℕ × IbvWc)) s c, Underway e wr g
      (IbvVirtualQp.segments e.vqp.maxMsgSize_ g.length) s → (e.vqp.qp? c.1).isSome →
      ∃ s', s.complete c = .ok s' ∧ Underway e wr g
        (IbvVirtualQp.segments e.vqp.maxMsgSize_ g.length) s' := by
    rintro _ s ⟨k, wc⟩ hs hc
    refine hs.step hlen hg ?_
    cases k with
    | none => rfl
    | some i =>
      rcases Option.isSome_iff_exists.mp hc with ⟨q, hq⟩
      have hlt : i < s.vqp.physicalQps_.length := by
        rw [hs.qps]
        exact (List.getElem?_eq_some_iff.mp hq).1
      exact Option.isSome_iff_exists.mpr ⟨_, List.getElem?_eq_getElem hlt⟩
  rcases run_invariant (fun _ s => Underway e wr g
    (IbvVirtualQp.segments e.vqp.maxMsgSize_ g.length) s) hstep cs hstart hadm with ⟨s, hrun, hs⟩
  exact ⟨s, hrun, hs.within hcnt hzero⟩

end Endpoint
end TorchComms.Ibverbx
