import TorchComms.Foundation.Tally
import TorchComms.Ibverbx.Endpoint

/-! # Work in flight on the physical QPs -/
namespace TorchComms.Ibverbx

open Foundation

/-- What sending uses of a physical QP. -/
def IbvQp.sendPart (q : IbvQp) : List PhysicalWrStatus × WorkQueue SendWqe :=
  (q.physicalSendWrStatus_, q.sq)

/-- What receiving uses of a physical QP. -/
def IbvQp.recvPart (q : IbvQp) : List PhysicalWrStatus × WorkQueue RecvWqe :=
  (q.physicalRecvWrStatus_, q.rq)

/-- How many of the recorded segments belong to a virtual work request. -/
def statusCount (id : ℕ) (sts : List PhysicalWrStatus) : ℤ :=
  (sts.map PhysicalWrStatus.virtualWrId).count id

section StatusCount

variable {id : ℕ} {st : PhysicalWrStatus} {sts : List PhysicalWrStatus}

@[simp] theorem statusCount_nil (id : ℕ) : statusCount id [] = 0 := rfl

theorem statusCount_cons (id : ℕ) (st : PhysicalWrStatus) (sts : List PhysicalWrStatus) :
    statusCount id (st :: sts) = statusCount id sts + if st.virtualWrId = id then 1 else 0 := by
  simp only [statusCount, List.map_cons, List.count_cons, beq_iff_eq]
  split <;> simp

theorem statusCount_concat (id : ℕ) (sts : List PhysicalWrStatus) (st : PhysicalWrStatus) :
    statusCount id (sts ++ [st]) = statusCount id sts + if st.virtualWrId = id then 1 else 0 := by
  simp only [statusCount, List.map_append, List.count_append, List.map_cons, List.map_nil,
    List.count_cons, List.count_nil, beq_iff_eq]
  split <;> simp

theorem statusCount_nonneg (id : ℕ) (sts : List PhysicalWrStatus) : 0 ≤ statusCount id sts :=
  Int.natCast_nonneg _

theorem statusCount_pos : 0 < statusCount id sts ↔ ∃ st ∈ sts, st.virtualWrId = id := by
  rw [statusCount, Int.natCast_pos, List.count_pos_iff, List.mem_map]

theorem statusCount_postSend (id : ℕ) (q : IbvQp) (wr : IbvSendWr) (virtualWrId : ℕ) :
    statusCount id (q.postSend wr virtualWrId).physicalSendWrStatus_ =
      statusCount id q.physicalSendWrStatus_ + if virtualWrId = id then 1 else 0 :=
  statusCount_concat _ _ _

theorem statusCount_postRecv (id : ℕ) (q : IbvQp) (wr : IbvRecvWr) (virtualWrId : ℕ) :
    statusCount id (q.postRecv wr virtualWrId).physicalRecvWrStatus_ =
      statusCount id q.physicalRecvWrStatus_ + if virtualWrId = id then 1 else 0 :=
  statusCount_concat _ _ _

end StatusCount

namespace IbvVirtualQp

variable {v v' : IbvVirtualQp} {k : Option ℕ} {q q' : IbvQp}

/-- All physical QPs, the notify QP first. -/
def qps (v : IbvVirtualQp) : List IbvQp := v.notifyQp_ :: v.physicalQps_

/-- The place of a QP in this list. -/
def pos : Option ℕ → ℕ
  | none => 0
  | some i => i + 1

theorem pos_inj {k l : Option ℕ} (h : pos k = pos l) : k = l := by
  cases k <;> cases l <;> simp_all [pos]

theorem qp?_eq (v : IbvVirtualQp) (k : Option ℕ) : v.qp? k = v.qps[pos k]? := by
  cases k <;> rfl

theorem qps_setQp (v : IbvVirtualQp) (k : Option ℕ) (q : IbvQp) :
    (v.setQp k q).qps = v.qps.set (pos k) q := by
  cases k <;> rfl

theorem qp?_setQp (h : v.qp? k = some q) (q' : IbvQp) (l : Option ℕ) :
    (v.setQp k q').qp? l = if l = k then some q' else v.qp? l := by
  rw [qp?_eq] at h
  rw [qp?_eq, qp?_eq, qps_setQp, List.getElem?_set]
  by_cases hlk : l = k
  · subst hlk
    rw [if_pos rfl, if_pos (List.getElem?_eq_some_iff.mp h).1, if_pos rfl]
  · rw [if_neg (fun hpos => hlk (pos_inj hpos.symm)), if_neg hlk]

theorem setQp_setQp (v : IbvVirtualQp) (k : Option ℕ) (q q' : IbvQp) :
    (v.setQp k q).setQp k q' = v.setQp k q' := by
  cases k with
  | none => rfl
  | some i => simp [setQp]

theorem mem_qps (h : v.qp? k = some q) : q ∈ v.qps := by
  rw [qp?_eq] at h
  exact List.mem_of_getElem? h

/-- The recorded segments of a virtual work request, over all QPs. -/
def inFlight (f : IbvQp → List PhysicalWrStatus) (v : IbvVirtualQp) (id : ℕ) : ℤ :=
  (v.qps.map fun q => statusCount id (f q)).sum

theorem inFlight_setQp (f : IbvQp → List PhysicalWrStatus) (h : v.qp? k = some q) (q' : IbvQp)
    (id : ℕ) :
    inFlight f (v.setQp k q') id =
      inFlight f v id - statusCount id (f q) + statusCount id (f q') := by
  rw [qp?_eq] at h
  rw [inFlight, qps_setQp, sum_map_set _ h]
  rfl

theorem statusCount_le_inFlight (f : IbvQp → List PhysicalWrStatus) (h : q ∈ v.qps) (id : ℕ) :
    statusCount id (f q) ≤ inFlight f v id :=
  le_sum_map (f := fun q => statusCount id (f q)) (fun _ _ => statusCount_nonneg _ _) h

theorem inFlight_nonneg (f : IbvQp → List PhysicalWrStatus) (v : IbvVirtualQp) (id : ℕ) :
    0 ≤ inFlight f v id :=
  sum_map_nonneg fun _ _ => statusCount_nonneg _ _

/-! ### The routing of completions -/

/-- There are data QPs, and the number of every QP leads back to it. -/
structure Wired (v : IbvVirtualQp) : Prop where
  data : v.physicalQps_ ≠ []
  index : ∀ k q, v.qp? k = some q → v.idxOfQpNum q.qp_num = .ok k

theorem Wired.of_eq (h : Wired v) (hmap : v'.qpNumToIdx_ = v.qpNumToIdx_)
    (hnums : v'.qps.map IbvQp.qp_num = v.qps.map IbvQp.qp_num) : Wired v' where
  data := by
    intro hnil
    simp only [qps, List.map_cons, List.cons.injEq, hnil, List.map_nil] at hnums
    exact h.data (List.map_eq_nil_iff.mp hnums.2.symm)
  index := by
    intro k q hq
    rw [qp?_eq] at hq
    have hnum : (v.qps.map IbvQp.qp_num)[pos k]? = some q.qp_num := by
      rw [← hnums, List.getElem?_map, hq]
      rfl
    rw [List.getElem?_map, Option.map_eq_some_iff] at hnum
    rcases hnum with ⟨p, hp, hpq⟩
    rw [← qp?_eq] at hp
    have hnotify : v'.notifyQp_.qp_num = v.notifyQp_.qp_num := by
      simp only [qps, List.map_cons, List.cons.injEq] at hnums
      exact hnums.1
    have hidx := h.index k p hp
    rw [hpq] at hidx
    simpa only [idxOfQpNum, hnotify, hmap] using hidx

theorem map_setQp {β : Type*} (g : IbvQp → β) (h : v.qp? k = some q) (hg : g q' = g q) :
    (v.setQp k q').qps.map g = v.qps.map g := by
  rw [qp?_eq] at h
  rw [qps_setQp, List.map_set, hg]
  apply List.ext_getElem?
  intro n
  rw [List.getElem?_set, List.getElem?_map]
  split
  · rename_i hn
    subst hn
    rcases List.getElem?_eq_some_iff.mp h with ⟨hlt, hq⟩
    simp [hlt, hq]
  · rfl

/-! ### What sending uses -/

/-- What sending uses has not changed. -/
structure SendFrame (v v' : IbvVirtualQp) : Prop where
  parts : v'.qps.map IbvQp.sendPart = v.qps.map IbvQp.sendPart
  pending : v'.pendingSendVirtualWrQue_ = v.pendingSendVirtualWrQue_
  notifyQue : v'.pendingSendNotifyVirtualWrQue_ = v.pendingSendNotifyVirtualWrQue_
  next : v'.nextSendPhysicalQpIdx_ = v.nextSendPhysicalQpIdx_

theorem SendFrame.trans {v'' : IbvVirtualQp} (h : SendFrame v v') (h' : SendFrame v' v'') :
    SendFrame v v'' where
  parts := h'.parts.trans h.parts
  pending := h'.pending.trans h.pending
  notifyQue := h'.notifyQue.trans h.notifyQue
  next := h'.next.trans h.next

theorem SendFrame.refl (v : IbvVirtualQp) : SendFrame v v := ⟨rfl, rfl, rfl, rfl⟩

theorem sendFrame_setQp (hq : v.qp? k = some q) (hpart : q'.sendPart = q.sendPart) :
    SendFrame v (v.setQp k q') := by
  refine ⟨map_setQp _ hq hpart, ?_, ?_, ?_⟩
  all_goals cases k <;> rfl

theorem wired_create {qpNums : List ℕ} {notifyQpNum : ℕ} (hne : qpNums ≠ [])
    (hnodup : (notifyQpNum :: qpNums).Nodup) (maxMsgCntPerQp maxMsgSize : ℤ)
    (scheme : LoadBalancingScheme) :
    Wired (create qpNums notifyQpNum maxMsgCntPerQp maxMsgSize scheme) where
  data := by simpa [create] using hne
  index := by
    intro k q hq
    rw [List.nodup_cons] at hnodup
    cases k with
    | none =>
      cases hq
      simp [idxOfQpNum, create]
    | some i =>
      simp only [qp?, create, List.getElem?_map, Option.map_eq_some_iff] at hq
      rcases hq with ⟨n, hn, rfl⟩
      have hnot : n ≠ notifyQpNum := by
        rintro rfl
        exact hnodup.1 (List.mem_of_getElem? hn)
      rcases List.getElem?_eq_some_iff.mp hn with ⟨hlt, _⟩
      have hfind : ((List.range qpNums.length).reverse.find? fun j => qpNums[j]? == some n) =
          some i := by
        cases hj : (List.range qpNums.length).reverse.find? fun j => qpNums[j]? == some n with
        | none =>
          rw [List.find?_eq_none] at hj
          exact absurd hn (by simpa using hj i (by simpa using hlt))
        | some j =>
          have hnj := List.find?_some hj
          rw [beq_iff_eq, ← hn] at hnj
          have hjlt : j < qpNums.length := by
            have hmem := List.mem_of_find?_eq_some hj
            simpa using hmem
          rw [(List.getElem?_inj hjlt hnodup.2).mp hnj]
      simp [idxOfQpNum, create, hnot, hfind]

section Create

variable {qpNums : List ℕ} {notifyQpNum : ℕ} {maxMsgCntPerQp maxMsgSize : ℤ}
  {scheme : LoadBalancingScheme}

theorem fresh_of_mem_create
    (hq : q ∈ (create qpNums notifyQpNum maxMsgCntPerQp maxMsgSize scheme).qps) :
    ∃ n, q = { qp_num := n } := by
  rcases List.mem_cons.mp hq with rfl | hq
  · exact ⟨_, rfl⟩
  · rcases List.mem_map.mp hq with ⟨n, _, rfl⟩
    exact ⟨n, rfl⟩

theorem inFlight_create {f : IbvQp → List PhysicalWrStatus} (hf : ∀ n, f { qp_num := n } = [])
    (id : ℕ) :
    inFlight f (create qpNums notifyQpNum maxMsgCntPerQp maxMsgSize scheme) id = 0 := by
  apply List.sum_eq_zero
  intro n hn
  rcases List.mem_map.mp hn with ⟨q, hq, rfl⟩
  rcases fresh_of_mem_create hq with ⟨m, rfl⟩
  rw [hf, statusCount_nil]

end Create

end IbvVirtualQp
end TorchComms.Ibverbx
