import TorchComms.Ibverbx.Charging

/-! # Unsignaled sends

A physical QP reports nothing for an unsignaled segment, and nothing takes its record out of
`physicalSendWrStatus_`. Sends go well as long as every completion is that of the oldest segment of
its QP; the completion of a segment behind an unsignaled one is an error.
-/
namespace TorchComms.Ibverbx

open Foundation

namespace IbvVirtualQp

variable {v v' : IbvVirtualQp} {ids ids' : List ℕ} {id : ℕ} {k : Option ℕ} {q : IbvQp}

/-! ### The sends that are reported -/

/-- Every part that will be reported belongs to a send of `ids`. -/
structure Owned (ids : List ℕ) (v : IbvVirtualQp) : Prop where
  flying : ∀ q ∈ v.qps, ∀ x ∈ q.sq.outstanding, x.wr.signaled → x.virtualWrId ∈ ids
  pending : ∀ w ∈ v.pendingSendVirtualWrQue_, w.wr.Reported → w.wr.wr_id ∈ ids

theorem segmentInvariant_owned (ids : List ℕ) : SegmentInvariant (Owned ids) where
  next u n h := ⟨h.flying, h.pending⟩
  segment u u' i w rest hs h hpend hi hfirst hpost := by
    rcases postSegment_spec hs hpend hi hfirst with ⟨v', hpost', _, _, ⟨⟨q, wr, hq, hqps, hsig⟩, hold⟩, _⟩
    rw [hpost, Except.ok.injEq] at hpost'
    subst hpost'
    constructor
    · intro p hp x hx hxsig
      rcases mem_of_mem_set (hqps ▸ hp) with rfl | hp
      · simp only [IbvQp.postSend, WorkQueue.outstanding_post, List.mem_append,
          List.mem_singleton] at hx
        rcases hx with hx | rfl
        · exact h.flying q (mem_qps hq) x hx hxsig
        · exact h.pending w (by simp [hpend]) (hsig.mp hxsig)
      · exact h.flying p hp x hx hxsig
    · intro x hx
      rcases List.mem_map.mp (hold x hx) with ⟨y, hy, hwr⟩
      rw [← hwr]
      exact h.pending y hy

theorem Moved.owned (h : Moved v v') (howned : Owned ids v) : Owned ids v' :=
  h.keeps _ (segmentInvariant_owned ids) howned

theorem Owned.push (h : Owned ids v) (hsub : ∀ id ∈ ids, id ∈ ids') {x : VirtualSendWr}
    (hx : x.wr.Reported → x.wr.wr_id ∈ ids') :
    Owned ids' { v with pendingSendVirtualWrQue_ := v.pendingSendVirtualWrQue_ ++ [x] } where
  flying p hp y hy hsig := hsub _ (h.flying p hp y hy hsig)
  pending y hy hreported := by
    rcases List.mem_append.mp hy with hy | hy
    · exact hsub _ (h.pending y hy hreported)
    · rw [List.mem_singleton] at hy
      subst hy
      exact hx hreported

theorem Owned.retire (h : Owned ids v) (hq : v.qp? k = some q) {x : SendWqe} {xs : List SendWqe}
    (hout : q.sq.outstanding = x :: xs) {sq : WorkQueue SendWqe} (hsq : sq.outstanding = xs)
    (sts : List PhysicalWrStatus) : Owned ids (v.setQp k (retireSend q sq sts)) where
  flying p hp y hy := by
    rcases mem_of_mem_set (qps_setQp v k (retireSend q sq sts) ▸ hp) with rfl | hp
    · rw [retireSend, hsq] at hy
      exact h.flying q (mem_qps hq) y (by simp [hout, hy])
    · exact h.flying p hp y hy
  pending := by
    have hpend : (v.setQp k (retireSend q sq sts)).pendingSendVirtualWrQue_ =
        v.pendingSendVirtualWrQue_ := by
      cases k <;> rfl
    rw [hpend]
    exact h.pending

theorem SendDone.sendLeft (h : SendDone v id) (hs : Spreading v) : v.sendLeft id = 0 := by
  have hnone : ∀ ws : List VirtualSendWr, (∀ w ∈ ws, w.wr.wr_id ≠ id) → waiting id ws = 0 := by
    intro ws hws
    apply List.sum_eq_zero
    intro z hz
    rcases List.mem_map.mp hz with ⟨w, hw, rfl⟩
    exact if_neg (hws w hw)
  have hfly : inFlight IbvQp.physicalSendWrStatus_ v id = 0 := by
    apply List.sum_eq_zero
    intro z hz
    rcases List.mem_map.mp hz with ⟨q, hq, rfl⟩
    by_contra hne
    have hpos := lt_of_le_of_ne (statusCount_nonneg id q.physicalSendWrStatus_) (Ne.symm hne)
    rcases statusCount_pos.mp hpos with ⟨st, hst, hid⟩
    rw [hs.mirror q hq, List.mem_map] at hst
    rcases hst with ⟨x, hx, rfl⟩
    exact h.flying q hq x hx hid
  rw [IbvVirtualQp.sendLeft, hnone _ h.pending, hnone _ h.notify, hfly]
  rfl

theorem Spreading.sendLeft_pos_of_pending (hs : Spreading v) {w : VirtualSendWr}
    (hw : w ∈ v.pendingSendVirtualWrQue_) : 0 < v.sendLeft w.wr.wr_id := by
  have hle := le_waiting (fun w hw => (hs.pending w hw).left) hw
  have hpos := (hs.pending w hw).left
  have hwait := hs.waiting_nonneg w.wr.wr_id
  have hfly := inFlight_nonneg IbvQp.physicalSendWrStatus_ v w.wr.wr_id
  rw [IbvVirtualQp.sendLeft]
  omega

end IbvVirtualQp

/-- An endpoint and the completions of sends that it has reported. -/
structure Sender where
  endpoint : Endpoint
  reported : List IbvWc := []

namespace Sender

inductive Op where
  | postSend (sendWr : IbvSendWr)
  | sendCompletion (qpIdx : Option ℕ) (wc : IbvWc)
  | pollCq (numEntries : ℕ)
deriving DecidableEq

def step (s : Sender) : Op → Except Fault Sender
  | .postSend sendWr => (s.endpoint.postSend sendWr).map fun e => { s with endpoint := e }
  | .sendCompletion qpIdx wc =>
    (s.endpoint.sendCompletion qpIdx wc).map fun e => { s with endpoint := e }
  | .pollCq numEntries =>
    (s.endpoint.pollVirtualCq s.endpoint.sendCq numEntries).map fun r => ⟨r.2, s.reported ++ r.1⟩

def Op.posted : Op → Option IbvSendWr
  | .postSend sendWr => some sendWr
  | _ => none

def posts (past : List Op) : List IbvSendWr := past.filterMap Op.posted

/-- Signaled and unsignaled writes, reads and sends with distinct ids, which the code can cut. -/
def WellFormed (past : List Op) (s : Sender) : Op → Prop
  | .postSend wr => wr.num_sge = 1 ∧
      (∃ sg ∈ wr.sg_list, IbvVirtualQp.Segmentable s.endpoint.vqp.maxMsgSize_ sg.length) ∧
      (wr.opcode = .IBV_WR_RDMA_WRITE ∨ wr.opcode = .IBV_WR_RDMA_READ ∨ wr.opcode = .IBV_WR_SEND) ∧
      wr.wr_id ∉ (posts past).map IbvSendWr.wr_id
  | .sendCompletion qpIdx _ => (s.endpoint.vqp.qp? qpIdx).isSome
  | .pollCq _ => True

/-- The segment that completes is the oldest one outstanding on its QP. -/
def InFront (s : Sender) : Op → Prop
  | .sendCompletion qpIdx _ => ∀ q ∈ s.endpoint.vqp.qp? qpIdx, ∀ r ∈ q.completeSend,
      q.sq.outstanding.head? = some r.1
  | _ => True

def Allowed (past : List Op) (s : Sender) (op : Op) : Prop := WellFormed past s op ∧ s.InFront op

/-- The completions of sends that have not been reported. -/
def que (s : Sender) : StableDeque VirtualWc :=
  (s.endpoint.cqs s.endpoint.sendCq).pendingSendVirtualWcQue_

/-- A poll reports the sends at the front of the queue of which no segment is left, all that it has
room for. -/
def PollsDone (s : Sender) (numEntries : ℕ) : Prop :=
  ∃ wcs s' ws, s.step (.pollCq numEntries) = .ok s' ∧ s'.reported = s.reported ++ wcs ∧
    s.que.items = ws ++ s'.que.items ∧ wcs.Perm (ws.map VirtualWc.wc) ∧
    (∀ w ∈ ws, s.endpoint.vqp.SendDone w.wr_id) ∧
    (numEntries ≤ wcs.length ∨ ∀ w ∈ s'.que.items.head?, ¬ s.endpoint.vqp.SendDone w.wr_id)

structure Healthy (past : List Op) (s : Sender) : Prop where
  retired : ∀ q ∈ s.endpoint.vqp.qps, q.physicalSendWrStatus_ = q.sq.outstanding.map SendWqe.status
  once : (s.reported.map IbvWc.wr_id ++ wrIds s.que).Perm
    (((posts past).filter IbvSendWr.signaled).map IbvSendWr.wr_id)
  polls : ∀ numEntries, s.PollsDone numEntries

/-! ### The invariant -/

/-- The segments left of the sends that the queue holds. -/
def left (s : Sender) (id : ℕ) : ℤ := if id ∈ wrIds s.que then s.endpoint.vqp.sendLeft id else 0

structure Tracked (past : List Op) (s : Sender) : Prop where
  spreading : s.endpoint.vqp.Spreading
  size : 1 ≤ s.endpoint.vqp.maxMsgSize_
  empty : (s.endpoint.cqs s.endpoint.sendCq).pendingRecvVirtualWcQue_.items = []
  ledger : Ledger (s.endpoint.cqs s.endpoint.sendCq) s.left fun _ => 0
  owned : s.endpoint.vqp.Owned (wrIds s.que)
  known : ∀ id, s.endpoint.vqp.sendLeft id ≠ 0 → id ∈ (posts past).map IbvSendWr.wr_id
  plain : ∀ w ∈ s.que.items, w.sendExtraNotifyImm = false
  once : (s.reported.map IbvWc.wr_id ++ wrIds s.que).Perm
    (((posts past).filter IbvSendWr.signaled).map IbvSendWr.wr_id)

variable {past : List Op} {s s' : Sender} {v : IbvVirtualQp} {cq : IbvVirtualCq}

theorem posts_append (past : List Op) (op : Op) :
    posts (past ++ [op]) = posts past ++ op.posted.toList := by
  rw [posts, List.filterMap_append, posts]
  cases op <;> rfl

/-- The state after a step that changes the virtual QP and the send CQ. -/
def after (s : Sender) (v : IbvVirtualQp) (cq : IbvVirtualCq) (wcs : List IbvWc) : Sender :=
  ⟨{ s.endpoint with vqp := v }.updateCq s.endpoint.sendCq cq, s.reported ++ wcs⟩

theorem after_cq (s : Sender) (v : IbvVirtualQp) (cq : IbvVirtualCq) (wcs : List IbvWc) :
    (s.after v cq wcs).endpoint.cqs (s.after v cq wcs).endpoint.sendCq = cq :=
  Function.update_self ..

theorem after_que (s : Sender) (v : IbvVirtualQp) (cq : IbvVirtualCq) (wcs : List IbvWc) :
    (s.after v cq wcs).que = cq.pendingSendVirtualWcQue_ := by
  rw [que, after_cq]

theorem left_nonneg (hs : s.endpoint.vqp.Spreading) (id : ℕ) : 0 ≤ s.left id := by
  rw [left]
  split
  · exact hs.sendLeft_nonneg id
  · exact Int.le_refl 0

theorem Tracked.not_queued (h : Tracked past s) {id : ℕ}
    (hid : id ∉ (posts past).map IbvSendWr.wr_id) :
    id ∉ wrIds s.que ∧ s.endpoint.vqp.sendLeft id = 0 := by
  constructor
  · intro hmem
    have hposted := h.once.subset (List.mem_append_right _ hmem)
    rcases List.mem_map.mp hposted with ⟨wr, hwr, rfl⟩
    exact hid (List.mem_map_of_mem (List.mem_filter.mp hwr).1)
  · by_contra hne
    exact hid (h.known id hne)

/-! ### Posting -/

variable {wr : IbvSendWr} {op : Op}

section

variable (h : Tracked past s)
include h

/-- A send joins the queue of the CQ if it is signaled. -/
theorem Tracked.posted {n : ℤ} (hspreading : v.Spreading)
    (hsize : 1 ≤ v.maxMsgSize_) (hempty : cq.pendingRecvVirtualWcQue_.items = [])
    (hleft : ∀ id, v.sendLeft id = s.endpoint.vqp.sendLeft id + if wr.wr_id = id then n else 0)
    (hids : wrIds cq.pendingSendVirtualWcQue_ =
      wrIds s.que ++ if wr.signaled then [wr.wr_id] else [])
    (hledger : Ledger cq (fun id => if id ∈ wrIds cq.pendingSendVirtualWcQue_ then v.sendLeft id else 0)
      fun _ => 0) (howned : v.Owned (wrIds cq.pendingSendVirtualWcQue_))
    (hplain : ∀ w ∈ cq.pendingSendVirtualWcQue_.items, w.sendExtraNotifyImm = false) :
    Tracked (past ++ [.postSend wr]) (s.after v cq []) where
  spreading := hspreading
  size := hsize
  empty := by
    rw [after_cq]
    exact hempty
  ledger := by
    rw [after_cq]
    apply hledger.of_left
    · intro id
      rw [left, after_que]
      rfl
    · exact fun _ => rfl
  owned := by
    rw [after_que]
    exact howned
  known id hne := by
    change v.sendLeft id ≠ 0 at hne
    rw [posts_append, List.map_append, List.mem_append]
    by_cases heq : wr.wr_id = id
    · subst heq
      exact Or.inr (List.mem_map_of_mem (List.mem_singleton.mpr rfl))
    · rw [hleft, if_neg heq, add_zero] at hne
      exact Or.inl (h.known id hne)
  plain := by
    rw [after_que]
    exact hplain
  once := by
    have hreports : (s.after v cq []).reported = s.reported := List.append_nil _
    rw [after_que, hids, hreports, posts_append, List.filter_append, List.map_append,
      ← List.append_assoc]
    have hnew : (if wr.signaled then [wr.wr_id] else []) =
        ((Op.postSend wr).posted.toList.filter IbvSendWr.signaled).map IbvSendWr.wr_id := by
      cases hsig : wr.signaled <;> simp [Op.posted, hsig]
    rw [hnew]
    exact h.once.append_right _

theorem Tracked.postSend
    (hop : WellFormed past s (.postSend wr)) :
    ∃ s', s.step (.postSend wr) = .ok s' ∧ Tracked (past ++ [.postSend wr]) s' := by
  rcases hop with ⟨hnum, ⟨sg, hsg, hlen⟩, hopcode, hid⟩
  have himm : wr.opcode ≠ .IBV_WR_RDMA_WRITE_WITH_IMM := by
    rcases hopcode with hop | hop | hop <;> simp [hop]
  have hdiv : IbvVirtualQp.Divisible s.endpoint.vqp.maxMsgSize_ wr := by
    refine ⟨hnum, ⟨sg, hsg, hlen, fun hc => absurd hc himm⟩, ?_⟩
    rcases hopcode with hop | hop | hop <;> simp [hop]
  rcases h.spreading.postSend h.size hdiv with
    ⟨n, extra, v, hpost, _, _, _, hextra, hspreading, hmoved, _⟩
  have hplain : extra = false := by
    cases extra with
    | false => rfl
    | true => exact absurd (hextra.mp rfl).1 himm
  subst hplain
  rcases h.not_queued hid with ⟨hnew, hzero⟩
  have hleft : ∀ id, v.sendLeft id = s.endpoint.vqp.sendLeft id + if wr.wr_id = id then n else 0 := by
    intro id
    rw [hmoved.left, IbvVirtualQp.sendLeft_push, share, hdiv.ofWr]
    rfl
  have hsize : 1 ≤ v.maxMsgSize_ := by
    rw [hmoved.maxMsgSize]
    exact h.size
  refine ⟨s.after v ((s.endpoint.cqs s.endpoint.sendCq).processRequest
    (.SEND v.virtualQpNum_ n wr false)) [], ?_, ?_⟩
  · simp only [step, Endpoint.postSend, hpost, bind, Except.bind, Except.map, after, List.append_nil]
    rfl
  · cases hsig : wr.signaled with
    | true =>
      have hempty : wr.wr_id ∉ wrIds (s.endpoint.cqs s.endpoint.sendCq).pendingRecvVirtualWcQue_ := by
        simp [wrIds, h.empty]
      have hleft' : ∀ j, (if j ∈ wrIds s.que ++ [wr.wr_id] then v.sendLeft j else 0) =
          s.left j + if wr.wr_id = j then n else 0 := by
        intro j
        rw [hleft, left]
        by_cases heq : wr.wr_id = j
        · subst heq
          rw [if_neg hnew, if_pos (by simp), hzero]
        · rw [if_neg heq, add_zero, add_zero]
          simp [Ne.symm heq]
      rcases h.ledger.pushSend (Or.inl hsig) hnew hempty v.virtualQpNum_ n false hleft' with
        ⟨hledger, hitems, hitems'⟩
      generalize (s.endpoint.cqs s.endpoint.sendCq).processRequest
        (.SEND v.virtualQpNum_ n wr false) = cq at hledger hitems hitems'
      have hids : wrIds cq.pendingSendVirtualWcQue_ = wrIds s.que ++ [wr.wr_id] := by
        rw [hitems, wrIds, StableDeque.push_back, List.map_append]
        rfl
      refine h.posted hspreading hsize ?_ hleft ?_ ?_ ?_ ?_
      · rw [hitems']
        exact h.empty
      · rw [hids, hsig]
        rfl
      · rw [hids]
        exact hledger
      · rw [hids]
        apply hmoved.owned
        apply h.owned.push fun id hmem => List.mem_append_left _ hmem
        rw [hdiv.ofWr]
        exact fun _ => List.mem_append_right _ (List.mem_singleton.mpr rfl)
      · rw [hitems]
        intro w hw
        rcases List.mem_append.mp hw with hw | hw
        · exact h.plain w hw
        · rw [List.mem_singleton.mp hw]
          rfl
    | false =>
      have hnot : ¬(wr.signaled ∨ wr.opcode = .IBV_WR_RDMA_WRITE_WITH_IMM) := by simp [hsig, himm]
      rw [IbvVirtualCq.processRequest, if_neg hnot]
      have hkeep : ∀ id ∈ wrIds s.que, Function.update
          (s.endpoint.cqs s.endpoint.sendCq).virtualWrIdToVirtualWc_ wr.wr_id (some none) id =
            (s.endpoint.cqs s.endpoint.sendCq).virtualWrIdToVirtualWc_ id := by
        intro id hmem
        apply Function.update_of_ne
        rintro rfl
        exact hnew hmem
      refine h.posted hspreading hsize h.empty hleft ?_ ⟨?_, ?_, ?_⟩ ?_ h.plain
      · rw [hsig]
        exact (List.append_nil _).symm
      · apply (h.ledger.send.of_map hkeep).of_left
        intro id
        rw [left]
        by_cases hmem : id ∈ wrIds s.que
        · have hne : wr.wr_id ≠ id := by
            rintro rfl
            exact hnew hmem
          rw [if_pos hmem, hleft, if_neg hne, add_zero]
          exact if_pos hmem
        · rw [if_neg hmem]
          exact if_neg hmem
      · apply h.ledger.recv.of_map
        simp [wrIds, h.empty]
      · exact h.ledger.apart
      · apply hmoved.owned
        apply h.owned.push fun id hmem => hmem
        rw [hdiv.ofWr]
        intro hreported
        rcases hreported with hc | hc
        · exact absurd hc himm
        · rw [hsig] at hc
          cases hc

/-! ### Completing -/

theorem Tracked.append (hop : op.posted = none) : Tracked (past ++ [op]) s := by
  have hposts : posts (past ++ [op]) = posts past := by
    rw [posts_append, hop]
    exact List.append_nil _
  exact { h with
    known := by
      rw [hposts]
      exact h.known
    once := by
      rw [hposts]
      exact h.once }

theorem Tracked.sendCompletion {k : Option ℕ} {wc : IbvWc}
    (hop : Allowed past s (.sendCompletion k wc)) :
    ∃ s', s.step (.sendCompletion k wc) = .ok s' ∧ Tracked (past ++ [.sendCompletion k wc]) s' := by
  rcases Option.isSome_iff_exists.mp hop.1 with ⟨q, hq⟩
  cases hcomp : q.completeSend with
  | none =>
    refine ⟨s, ?_, h.append rfl⟩
    simp only [step, Endpoint.sendCompletion, hq, hcomp, Except.map]
  | some r =>
    have hfront : q.sq.outstanding.head? = some r.1 := hop.2 q hq r hcomp
    cases hout : q.sq.outstanding with
    | nil =>
      rw [hout] at hfront
      cases hfront
    | cons x xs =>
      rw [hout, List.head?_cons, Option.some.injEq] at hfront
      have hsig : x.wr.signaled := by
        rw [IbvQp.completeSend, Option.map_eq_some_iff] at hcomp
        rcases hcomp with ⟨⟨a, sq⟩, hnext, rfl⟩
        have hsignaled := WorkQueue.signaled_of_completeNext hnext
        rw [hfront]
        exact hsignaled
      rcases h.spreading.completeSend hq hout hsig with
        ⟨sq, v, hcomp, _, hsq, hproc, hspreading, hmoved, hleft, _⟩
      have hmem := IbvVirtualQp.mem_qps hq
      have hqueued : x.virtualWrId ∈ wrIds s.que :=
        h.owned.flying q hmem x (by simp [hout]) hsig
      have hpos := h.spreading.sendLeft_pos hmem (x := x) (by simp [hout])
      have hleft' : ∀ j, (if j ∈ wrIds s.que then v.sendLeft j else 0) =
          s.left j - if x.virtualWrId = j then 1 else 0 := by
        intro j
        rw [hleft, left]
        by_cases hj : j ∈ wrIds s.que
        · rw [if_pos hj, if_pos hj]
        · have hne : x.virtualWrId ≠ j := by
            rintro rfl
            exact hj hqueued
          rw [if_neg hj, if_neg hj, if_neg hne]
          rfl
      have hne : s.left x.virtualWrId ≠ 0 := by
        rw [left, if_pos hqueued]
        exact Int.ne_of_gt hpos
      rcases h.ledger.chargeSend hne { wc with
        wr_id := x.wr.wr_id, qp_num := q.qp_num, opcode := wcOpcode x.wr.opcode } hleft' with
        ⟨w, cq, hcharge, hledger, hw, hid, hitems, hitems'⟩
      have heq := Endpoint.sendCompletion_eq hq hcomp wc hproc hcharge
      have hextra : w.sendExtraNotifyImm = false := h.plain w hw
      rw [VirtualWc.charge_sendExtraNotifyImm, hextra, if_neg (by simp)] at heq
      have hids : wrIds cq.pendingSendVirtualWcQue_ = wrIds s.que := by
        rw [wrIds, hitems, List.map_map]
        apply List.map_congr_left
        intro u _
        simp only [Function.comp_apply]
        split <;> rfl
      have hreports : (s.after v cq []).reported = s.reported := List.append_nil _
      refine ⟨s.after v cq [], ?_, ?_⟩
      · simp only [step, heq, Except.map, after, List.append_nil]
      · apply Tracked.append _ rfl
        exact {
          spreading := hspreading
          size := by
            change 1 ≤ v.maxMsgSize_
            rw [hmoved.maxMsgSize]
            have hsame : (s.endpoint.vqp.setQp k
                (IbvVirtualQp.retireSend q sq (xs.map SendWqe.status))).maxMsgSize_ =
                  s.endpoint.vqp.maxMsgSize_ := by
              cases k <;> rfl
            rw [hsame]
            exact h.size
          empty := by
            rw [after_cq, hitems']
            exact h.empty
          ledger := by
            rw [after_cq]
            apply hledger.of_left
            · intro id
              rw [left, after_que, hids]
              rfl
            · exact fun _ => rfl
          owned := by
            rw [after_que, hids]
            exact hmoved.owned (h.owned.retire hq hout hsq _)
          known := by
            intro id hne
            change v.sendLeft id ≠ 0 at hne
            apply h.known
            intro hzero
            apply hne
            rw [hleft, hzero, if_neg]
            · rfl
            · rintro rfl
              exact Int.ne_of_gt hpos hzero
          plain := by
            rw [after_que, hitems]
            intro u hu
            rcases List.mem_map.mp hu with ⟨u', hu', rfl⟩
            split <;> exact h.plain u' hu'
          once := by
            rw [after_que, hids, hreports]
            exact h.once }

/-! ### Polling -/

theorem Tracked.pollCq (numEntries : ℕ) :
    s.PollsDone numEntries ∧ ∃ s', s.step (.pollCq numEntries) = .ok s' ∧
      Tracked (past ++ [.pollCq numEntries]) s' := by
  rcases h.ledger.poll (left_nonneg h.spreading) (fun _ => Int.le_refl 0) numEntries with
    ⟨wcs, cq, ps, pr, hpoll, hpolled, hprogress⟩
  have hrecvs := hpolled.recvs
  rw [h.empty] at hrecvs
  rcases List.append_eq_nil_iff.mp hrecvs.symm with ⟨rfl, hempty⟩
  have hstep : s.step (.pollCq numEntries) = .ok (s.after s.endpoint.vqp cq wcs) := by
    simp only [step, Endpoint.pollVirtualCq, hpoll, bind, Except.bind, Except.map, after]
  have hwcs : wcs.Perm (ps.map VirtualWc.wc) := by
    have hperm := hpolled.wcs
    rwa [List.append_nil] at hperm
  have hsends : s.que.items = ps ++ cq.pendingSendVirtualWcQue_.items := hpolled.sends
  have hmem : ∀ w ∈ cq.pendingSendVirtualWcQue_.items, w.wr_id ∈ wrIds s.que := by
    intro w hw
    rw [wrIds, hsends, List.map_append]
    exact List.mem_append_right _ (List.mem_map_of_mem hw)
  have hzero : ∀ w ∈ ps, s.endpoint.vqp.sendLeft w.wr_id = 0 := by
    intro w hw
    have hleft := hpolled.sendsDone w hw
    rwa [left, if_pos] at hleft
    rw [wrIds, hsends, List.map_append]
    exact List.mem_append_left _ (List.mem_map_of_mem hw)
  have hkept : ∀ id ∈ wrIds s.que, s.endpoint.vqp.sendLeft id ≠ 0 →
      id ∈ wrIds cq.pendingSendVirtualWcQue_ := by
    intro id hid hne
    rw [wrIds, hsends, List.map_append, List.mem_append] at hid
    rcases hid with hid | hid
    · rcases List.mem_map.mp hid with ⟨w, hw, rfl⟩
      exact absurd (hzero w hw) hne
    · exact hid
  constructor
  · refine ⟨wcs, _, ps, hstep, rfl, ?_, hwcs, fun w hw => h.spreading.sendDone (hzero w hw), ?_⟩
    · rw [after_que]
      exact hsends
    · rw [after_que]
      refine hprogress.imp_right fun hwaits w hw hdone => ?_
      have hfront : w ∈ cq.pendingSendVirtualWcQue_.items := List.mem_of_mem_head? hw
      have hpos := hwaits.1 w hw
      rw [hpolled.ledger.send.exact w hfront, left, if_pos (hmem w hfront),
        hdone.sendLeft h.spreading] at hpos
      exact Int.lt_irrefl 0 hpos
  · refine ⟨_, hstep, Tracked.append ?_ rfl⟩
    exact {
      __ := h
      empty := by
        rw [after_cq]
        exact hempty
      ledger := by
        rw [after_cq]
        apply hpolled.ledger.of_left
        · intro id
          rw [left, left, after_que]
          change (if _ then s.endpoint.vqp.sendLeft id else 0) = _
          by_cases hid : id ∈ wrIds s.que
          · by_cases hz : s.endpoint.vqp.sendLeft id = 0
            · simp [hz]
            · rw [if_pos hid, if_pos (hkept id hid hz)]
          · rw [if_neg hid, if_neg]
            intro hc
            rcases List.mem_map.mp hc with ⟨w, hw, rfl⟩
            exact hid (hmem w hw)
        · exact fun _ => rfl
      owned := by
        rw [after_que]
        constructor
        · intro q hq x hx hsig
          exact hkept _ (h.owned.flying q hq x hx hsig)
            (Int.ne_of_gt (h.spreading.sendLeft_pos hq hx))
        · intro w hw hreported
          exact hkept _ (h.owned.pending w hw hreported)
            (Int.ne_of_gt (h.spreading.sendLeft_pos_of_pending hw))
      plain := by
        rw [after_que]
        intro w hw
        apply h.plain w
        rw [hsends]
        exact List.mem_append_right _ hw
      once := by
        have hids : (wcs.map IbvWc.wr_id).Perm (ps.map VirtualWc.wr_id) := by
          have hmap := hwcs.map IbvWc.wr_id
          rwa [List.map_map] at hmap
        have honce := h.once
        rw [wrIds, hsends, List.map_append, ← List.append_assoc] at honce
        change ((s.reported ++ wcs).map IbvWc.wr_id ++ _).Perm _
        rw [after_que, List.map_append]
        exact ((hids.append_left _).append_right _).trans honce }

end

/-! ### Runs -/

/-- A new virtual QP on its CQs. -/
def create (qpNums : List ℕ) (notifyQpNum : ℕ) (maxMsgCntPerQp maxMsgSize : ℤ)
    (scheme : LoadBalancingScheme) (sendCq recvCq : ℕ) : Sender where
  endpoint := .create qpNums notifyQpNum maxMsgCntPerQp maxMsgSize scheme sendCq recvCq

theorem tracked_create {qpNums : List ℕ} {notifyQpNum : ℕ} (hne : qpNums ≠ [])
    (hnodup : (notifyQpNum :: qpNums).Nodup) (maxMsgCntPerQp : ℤ) {maxMsgSize : ℤ}
    (hmax : 1 ≤ maxMsgSize) (scheme : LoadBalancingScheme) (sendCq recvCq : ℕ) :
    Tracked [] (create qpNums notifyQpNum maxMsgCntPerQp maxMsgSize scheme sendCq recvCq) := by
  have hsending := IbvVirtualQp.sending_create hne hnodup maxMsgCntPerQp maxMsgSize scheme
  exact {
    spreading := hsending.toSpreading
    size := hmax
    empty := rfl
    ledger := by
      apply Ledger.empty.of_left
      · intro id
        rw [left, if_neg (by simp [create, Endpoint.create, que, wrIds])]
      · exact fun _ => rfl
    owned := by
      constructor
      · intro q hq x hx
        rcases IbvVirtualQp.fresh_of_mem_create hq with ⟨n, rfl⟩
        cases hx
      · intro w hw
        cases hw
    known := by
      intro id hne
      exact absurd (IbvVirtualQp.sendLeft_create ..) hne
    plain := fun w hw => by cases hw
    once := List.Perm.refl _ }

theorem Tracked.step (h : Tracked past s) (hop : Allowed past s op) :
    ∃ s', s.step op = .ok s' ∧ Tracked (past ++ [op]) s' := by
  cases op with
  | postSend wr => exact h.postSend hop.1
  | sendCompletion k wc => exact h.sendCompletion hop
  | pollCq numEntries => exact (h.pollCq numEntries).2

theorem Tracked.healthy (h : Tracked past s) : Healthy past s where
  retired := h.spreading.mirror
  once := h.once
  polls numEntries := (h.pollCq numEntries).1

theorem healthy_of_inFront {qpNums : List ℕ} {notifyQpNum : ℕ} (hne : qpNums ≠ [])
    (hnodup : (notifyQpNum :: qpNums).Nodup) (maxMsgCntPerQp : ℤ) {maxMsgSize : ℤ}
    (hmax : 1 ≤ maxMsgSize) (scheme : LoadBalancingScheme) (sendCq recvCq : ℕ) (ops : List Op)
    (hadm : Admissible step Allowed []
      (create qpNums notifyQpNum maxMsgCntPerQp maxMsgSize scheme sendCq recvCq) ops) :
    ∃ s, run step (create qpNums notifyQpNum maxMsgCntPerQp maxMsgSize scheme sendCq recvCq) ops =
      .ok s ∧ Healthy ops s := by
  rcases run_invariant Tracked (fun _ _ _ h hop => h.step hop) ops
    (tracked_create hne hnodup maxMsgCntPerQp hmax scheme sendCq recvCq) hadm with ⟨s, hs, h⟩
  exact ⟨s, hs, h.healthy⟩

instance (past : List Op) (s : Sender) (op : Op) : Decidable (WellFormed past s op) := by
  cases op <;> unfold WellFormed <;> infer_instance

instance (s : Sender) (op : Op) : Decidable (s.InFront op) := by
  cases op <;> unfold InFront <;> infer_instance

instance (past : List Op) (s : Sender) (op : Op) : Decidable (Allowed past s op) :=
  inferInstanceAs (Decidable (_ ∧ _))

/-- Two signaled segments and then an unsignaled write. -/
theorem healthy_of_inFront_trailing :
    ∃ s, run step (create [10, 11] 12 4 100 .SPRAY 0 0)
        [.postSend ⟨1, some ⟨0, 150, 0⟩, 1, .IBV_WR_RDMA_WRITE, IBV_SEND_SIGNALED, 0, 0, 0⟩,
          .postSend ⟨2, some ⟨0, 10, 0⟩, 1, .IBV_WR_RDMA_WRITE, 0, 0, 0, 0⟩,
          .sendCompletion (some 1) {}, .sendCompletion (some 0) {}, .pollCq 4] = .ok s ∧
      Healthy [.postSend ⟨1, some ⟨0, 150, 0⟩, 1, .IBV_WR_RDMA_WRITE, IBV_SEND_SIGNALED, 0, 0, 0⟩,
        .postSend ⟨2, some ⟨0, 10, 0⟩, 1, .IBV_WR_RDMA_WRITE, 0, 0, 0, 0⟩,
        .sendCompletion (some 1) {}, .sendCompletion (some 0) {}, .pollCq 4] s :=
  healthy_of_inFront (by decide) (by decide) 4 (by decide) .SPRAY 0 0 _ (by decide +kernel)

/-- The record of an unsignaled write is still there when the next write completes. -/
theorem not_healthy_of_wellFormed :
    ¬ ∀ (qpNums : List ℕ) (notifyQpNum : ℕ) (maxMsgCntPerQp maxMsgSize : ℤ)
      (scheme : LoadBalancingScheme) (sendCq recvCq : ℕ) (ops : List Op), qpNums ≠ [] →
      (notifyQpNum :: qpNums).Nodup → 1 ≤ maxMsgSize →
      Admissible step WellFormed []
        (create qpNums notifyQpNum maxMsgCntPerQp maxMsgSize scheme sendCq recvCq) ops →
      ∃ s, run step (create qpNums notifyQpNum maxMsgCntPerQp maxMsgSize scheme sendCq recvCq) ops =
        .ok s ∧ Healthy ops s := by
  intro h
  rcases h [10] 12 4 100 .SPRAY 0 0
    [.postSend ⟨1, some ⟨0, 10, 0⟩, 1, .IBV_WR_RDMA_WRITE, 0, 0, 0, 0⟩,
      .postSend ⟨2, some ⟨0, 10, 0⟩, 1, .IBV_WR_RDMA_WRITE, IBV_SEND_SIGNALED, 0, 0, 0⟩,
      .sendCompletion (some 0) {}] (by decide) (by decide) (by decide) (by decide) with ⟨s, hs, _⟩
  cases hs

end Sender
end TorchComms.Ibverbx
