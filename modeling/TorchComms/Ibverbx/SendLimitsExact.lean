import TorchComms.Ibverbx.QpCapacity
import TorchComms.Ibverbx.SendLimits

/-! # Which sends stay within their limits

A send on an endpoint where nothing is in flight stays within its limits exactly when it has 1 to
`2 ^ 31 - 1` bytes, the QPs take messages, and the number of its parts is an `int`. An empty request
is posted for ever or without its notification, a longer one in a message that is too long.
-/
namespace TorchComms.Ibverbx

open Foundation

namespace IbvVirtualQp

variable {v v' v₀ : IbvVirtualQp} {w : VirtualSendWr} {wr : IbvSendWr} {b : Bool} {k' : Option ℕ}
  {i : ℕ} {k : Option ℕ} {n : ℕ}

theorem i32_of_ge (hge : 2 ^ 31 ≤ n) (hlt : n < 2 ^ 32) : i32 n = (n : ℤ) - (2 ^ 32 : ℕ) := by
  rw [i32, ← Int.sub_bmod_right]
  apply Int.bmod_eq_of_le_mul_two
  · omega
  · omega

theorem u32_negative (hlt : n < 2 ^ 32) : u32 ((n : ℤ) - (2 ^ 32 : ℕ)) = n := by
  rw [u32]
  omega

/-! ### The first round -/

/-- The request `w` alone waits, and no segment of it has been posted. -/
def Fresh (v₀ : IbvVirtualQp) (w : VirtualSendWr) (v : IbvVirtualQp) : Prop :=
  ∃ n < v₀.physicalQps_.length, v = { v₀ with
    pendingSendVirtualWrQue_ := [w], nextSendPhysicalQpIdx_ := n }

theorem selectSendQp_room (h : v.selectSendQp none w = .ok (some i, v', k'))
    (hmax : v.maxMsgCntPerQp_ ≠ -1) :
    ∃ q ∈ v.physicalQps_, v.hasRoom q.physicalSendWrStatus_.length := by
  cases hw : Spread w with
  | true =>
    rcases selectSendQp_spread hw hmax h with ⟨_, _, hfound⟩
    rcases hfound i rfl with hnone | ⟨q, hq, hroom⟩
    · cases hnone
    · exact ⟨q, List.mem_of_getElem? hq, hroom⟩
  | false =>
    rcases selectSendQp_stays hw h with ⟨_, _, hfound⟩
    rcases hfound i rfl with ⟨_, q, hq, hroom⟩
    exact ⟨q, List.mem_of_getElem? hq, hroom⟩

theorem Fresh.round (hempty : ∀ q ∈ v₀.physicalQps_, q.physicalSendWrStatus_ = [])
    (hop : Supported w.wr.opcode) (h : Fresh v₀ w v)
    (hround : mapPendingSendRound (v, none) = .ok (b, v', k')) :
    k' = none ∧ (b = false ∧ Fresh v₀ w v' ∧ ¬ v₀.hasRoom 0 ∨
      b = true ∧ (v₀.maxMsgCntPerQp_ = -1 ∨ v₀.hasRoom 0) ∧
        ∃ u i, Fresh v₀ w u ∧ u.postSegment i w [] = .ok v') := by
  rcases h with ⟨n, hn, rfl⟩
  rcases selectSendQp_spec (v := { v₀ with
    pendingSendVirtualWrQue_ := [w], nextSendPhysicalQpIdx_ := n }) (k := none) hn hop (by simp) with
    ⟨o, n', k, hselect, hn', _, _, hk, hfull⟩
  have hnone : k = none := by
    cases k with
    | none => rfl
    | some i => cases hk i rfl
  subst hnone
  rw [mapPendingSendRound_cons rfl, hselect] at hround
  simp only [bind, Except.bind] at hround
  cases o with
  | none =>
    cases hround
    refine ⟨rfl, Or.inl ⟨rfl, ⟨n', hn', rfl⟩, ?_⟩⟩
    rcases hfull rfl with ⟨q, hq, hroom⟩
    rw [hempty q hq] at hroom
    exact hroom
  | some i =>
    have hroom : v₀.maxMsgCntPerQp_ = -1 ∨ v₀.hasRoom 0 := by
      by_cases hmax : v₀.maxMsgCntPerQp_ = -1
      · exact Or.inl hmax
      · rcases selectSendQp_room hselect hmax with ⟨q, hq, hroom⟩
        rw [hempty q hq] at hroom
        exact Or.inr hroom
    cases hpost : postSegment { v₀ with
        pendingSendVirtualWrQue_ := [w], nextSendPhysicalQpIdx_ := n' } i w [] with
    | error e =>
      simp only [hpost] at hround
      cases hround
    | ok t =>
      simp only [hpost] at hround
      cases hround
      exact ⟨rfl, Or.inr ⟨rfl, hroom, _, i, ⟨n', hn', rfl⟩, hpost⟩⟩

/-- What a loop over the request `w` leads to from its start. -/
theorem map_of_ok (Inv Post : IbvVirtualQp → Prop)
    (hgo : ∀ u u' k k', mapPendingSendRound (u, k) = .ok (true, u', k') →
      Fresh v₀ w u ∧ k = none ∨ Inv u → Inv u')
    (hstop : ∀ u u' k k', mapPendingSendRound (u, k) = .ok (false, u', k') →
      Fresh v₀ w u ∧ k = none ∨ Inv u → Post u')
    (hnext : v₀.nextSendPhysicalQpIdx_ < v₀.physicalQps_.length)
    (h : { v₀ with pendingSendVirtualWrQue_ := [w] }.mapPendingSendQueToPhysicalQp none = .ok v') :
    Post v' := by
  rw [mapPendingSendQueToPhysicalQp] at h
  cases hloop : loop .diverged mapPendingSendRound (sendRounds [w])
      ({ v₀ with pendingSendVirtualWrQue_ := [w] }, none) with
  | error e =>
    rw [hloop] at h
    cases h
  | ok s =>
    rw [hloop] at h
    cases h
    apply loop_post_of_ok (fun s => Fresh v₀ w s.1 ∧ s.2 = none ∨ Inv s.1) (fun s => Post s.1)
      ?_ ?_ ?_ hloop
    · rintro ⟨u, k⟩ ⟨u', k'⟩ hround hu
      exact Or.inr (hgo u u' k k' hround hu)
    · rintro ⟨u, k⟩ ⟨u', k'⟩ hround hu
      exact hstop u u' k k' hround hu
    · exact Or.inl ⟨⟨_, hnext, rfl⟩, rfl⟩

theorem map_without_room (hempty : ∀ q ∈ v₀.physicalQps_, q.physicalSendWrStatus_ = [])
    (hop : Supported w.wr.opcode) (hnext : v₀.nextSendPhysicalQpIdx_ < v₀.physicalQps_.length)
    (hzero : v₀.maxMsgCntPerQp_ = 0)
    (h : { v₀ with pendingSendVirtualWrQue_ := [w] }.mapPendingSendQueToPhysicalQp none = .ok v') :
    Fresh v₀ w v' := by
  have hroom : ¬ (v₀.maxMsgCntPerQp_ = -1 ∨ v₀.hasRoom 0) := by
    simp [hasRoom, hzero, u64]
  apply map_of_ok (fun _ => False) (Fresh v₀ w) ?_ ?_ hnext h
  · rintro u u' k k' hround (⟨hu, rfl⟩ | hu)
    · rcases hu.round hempty hop hround with ⟨_, ⟨hb, _⟩ | ⟨_, hyes, _⟩⟩
      · cases hb
      · exact hroom hyes
    · exact hu
  · rintro u u' k k' hround (⟨hu, rfl⟩ | hu)
    · rcases hu.round hempty hop hround with ⟨_, ⟨_, hu', _⟩ | ⟨hb, _⟩⟩
      · exact hu'
      · cases hb
    · exact hu.elim

/-! ### Segments stay in the log -/

theorem selectSendQp_next {o k : Option ℕ} (h : v.selectSendQp k w = .ok (o, v', k')) :
    v'.physicalQps_ = v.physicalQps_ := by
  have hfind : ∀ {o : Option ℕ} {u : IbvVirtualQp}, v.findAvailableSendQp = .ok (o, u) →
      u.physicalQps_ = v.physicalQps_ := by
    intro o u hu
    rw [findAvailableSendQp] at hu
    split at hu
    · split at hu
      · cases hu
      · cases hu
        rfl
    · cases hscan : v.scanSendQps v.physicalQps_.length v.nextSendPhysicalQpIdx_ with
      | error e =>
        rw [hscan] at hu
        cases hu
      | ok r =>
        rw [hscan] at hu
        cases hu
        rfl
  unfold selectSendQp at h
  split at h
  iterate 3
    split at h
    · cases hav : v.findAvailableSendQp with
      | error e =>
        rw [hav] at h
        cases h
      | ok r =>
        rw [hav] at h
        cases h
        exact hfind hav
    · cases h
      rfl
  · split at h
    · cases h
    · cases h
      rfl

theorem round_grows (h : mapPendingSendRound (v, k) = .ok (b, v', k')) :
    ∃ more, v'.dataSegments.Perm (v.dataSegments ++ more) := by
  cases hpend : v.pendingSendVirtualWrQue_ with
  | nil =>
    simp only [mapPendingSendRound, hpend] at h
    cases h
    exact ⟨[], by rw [List.append_nil]⟩
  | cons w rest =>
    rw [mapPendingSendRound_cons hpend] at h
    cases hselect : v.selectSendQp k w with
    | error e =>
      rw [hselect] at h
      cases h
    | ok r =>
      rcases r with ⟨o, u, l⟩
      have hqps := selectSendQp_next hselect
      simp only [hselect, bind, Except.bind] at h
      cases o with
      | none =>
        cases h
        exact ⟨[], by rw [List.append_nil, dataSegments, hqps, dataSegments]⟩
      | some i =>
        cases hpost : u.postSegment i w rest with
        | error e =>
          simp only [hpost] at h
          cases h
        | ok t =>
          simp only [hpost] at h
          cases h
          rcases postSegment_of_ok hpost with ⟨q, x, g, tracker, ns, hq, _, _, _, _, _, _, rfl⟩
          refine ⟨[⟨x, w.wr.wr_id⟩], ?_⟩
          rw [hqps] at hq
          simp only [dataSegments, hqps]
          exact map_set_perm hq rfl

theorem map_first_segment (hempty : ∀ q ∈ v₀.physicalQps_, q.physicalSendWrStatus_ = [])
    (hop : Supported w.wr.opcode) (hnext : v₀.nextSendPhysicalQpIdx_ < v₀.physicalQps_.length)
    (hroom : v₀.hasRoom 0) {g : IbvSge} (hg : w.wr.sg_list = some g)
    (h : { v₀ with pendingSendVirtualWrQue_ := [w] }.mapPendingSendQueToPhysicalQp none = .ok v') :
    ∃ x more, v'.dataSegments.Perm (v₀.dataSegments ++ x :: more) ∧ ∃ s ∈ x.wr.sg_list,
      s.length = u32 (min (i32 (u32 (g.length - w.offset))) v₀.maxMsgSize_) := by
  have hkeep : ∀ {u u' : IbvVirtualQp} {k k' : Option ℕ} {b : Bool},
      mapPendingSendRound (u, k) = .ok (b, u', k') →
      (∃ x more, u.dataSegments.Perm (v₀.dataSegments ++ x :: more) ∧ ∃ s ∈ x.wr.sg_list,
        s.length = u32 (min (i32 (u32 (g.length - w.offset))) v₀.maxMsgSize_)) →
      ∃ x more, u'.dataSegments.Perm (v₀.dataSegments ++ x :: more) ∧ ∃ s ∈ x.wr.sg_list,
        s.length = u32 (min (i32 (u32 (g.length - w.offset))) v₀.maxMsgSize_) := by
    rintro u u' k k' b hround ⟨x, more, hperm, hx⟩
    rcases round_grows hround with ⟨more', hperm'⟩
    refine ⟨x, more ++ more', ?_, hx⟩
    have hall := hperm'.trans (hperm.append_right more')
    rw [List.append_assoc, List.cons_append] at hall
    exact hall
  apply map_of_ok (fun u => ∃ x more,
    u.dataSegments.Perm (v₀.dataSegments ++ x :: more) ∧ ∃ s ∈ x.wr.sg_list,
      s.length = u32 (min (i32 (u32 (g.length - w.offset))) v₀.maxMsgSize_)) _ ?_ ?_ hnext h
  · rintro u u' k k' hround (⟨hu, rfl⟩ | hu)
    · rcases hu.round hempty hop hround with ⟨_, ⟨hb, _⟩ | ⟨_, _, t, i, ⟨n, _, rfl⟩, hpost⟩⟩
      · cases hb
      · rcases postSegment_of_ok hpost with ⟨q, x, g', tracker, ns, hq, hg', _, _, hsg, _, _, rfl⟩
        rw [hg, Option.some.injEq] at hg'
        subst hg'
        exact ⟨⟨x, w.wr.wr_id⟩, [], map_set_perm hq rfl, _, hsg, rfl⟩
    · exact hkeep hround hu
  · rintro u u' k k' hround (⟨hu, rfl⟩ | hu)
    · rcases hu.round hempty hop hround with ⟨_, ⟨_, _, hnot⟩ | ⟨hb, _⟩⟩
      · exact absurd hroom hnot
      · cases hb
    · exact hkeep hround hu

/-! ### A request of one segment -/

/-- One segment of `w` is posted, and nothing waits. -/
def Once (v₀ : IbvVirtualQp) (w : VirtualSendWr) (v : IbvVirtualQp) : Prop :=
  ∃ n i q x tracker ns, v₀.physicalQps_[i]? = some q ∧ x.signaled ∧ v = { v₀ with
    physicalQps_ := v₀.physicalQps_.set i (q.postSend x w.wr.wr_id)
    nextSendPhysicalQpIdx_ := n
    nextPhysicalWrId_ := v₀.nextPhysicalWrId_ + 1
    dqplbSeqTracker := tracker
    pendingSendVirtualWrQue_ := []
    pendingSendNotifyVirtualWrQue_ := ns }

theorem mapPendingSendRound_nil (h : v.pendingSendVirtualWrQue_ = []) :
    mapPendingSendRound (v, k) = .ok (false, v, k) := by
  simp only [mapPendingSendRound, h]

theorem map_once (hempty : ∀ q ∈ v₀.physicalQps_, q.physicalSendWrStatus_ = [])
    (hop : Supported w.wr.opcode) (hnext : v₀.nextSendPhysicalQpIdx_ < v₀.physicalQps_.length)
    (hroom : v₀.hasRoom 0) (hone : w.remainingMsgCnt = 1) (hreported : w.wr.Reported)
    (h : { v₀ with pendingSendVirtualWrQue_ := [w] }.mapPendingSendQueToPhysicalQp none = .ok v') :
    Once v₀ w v' := by
  have hpend : ∀ u, Once v₀ w u → u.pendingSendVirtualWrQue_ = [] := by
    rintro u ⟨n, i, q, x, tracker, ns, _, _, rfl⟩
    rfl
  apply map_of_ok (Once v₀ w) (Once v₀ w) ?_ ?_ hnext h
  · rintro u u' k k' hround (⟨hu, rfl⟩ | hu)
    · rcases hu.round hempty hop hround with ⟨_, ⟨hb, _⟩ | ⟨_, _, t, i, ⟨n, _, rfl⟩, hpost⟩⟩
      · cases hb
      · rcases postSegment_of_ok hpost with ⟨q, x, g, tracker, ns, hq, _, _, _, _, _, hsig, rfl⟩
        refine ⟨n, i, q, x, tracker, ns, hq, hsig hop hreported, ?_⟩
        simp only [advanced, hone, sub_self, true_or, if_true]
    · rw [mapPendingSendRound_nil (hpend u hu)] at hround
      cases hround
  · rintro u u' k k' hround (⟨hu, rfl⟩ | hu)
    · rcases hu.round hempty hop hround with ⟨_, ⟨_, _, hnot⟩ | ⟨hb, _⟩⟩
      · exact absurd hroom hnot
      · cases hb
    · rw [mapPendingSendRound_nil (hpend u hu)] at hround
      cases hround
      exact hu

/-! ### A request that does not end -/

/-- The request stays at the front, and all that is in flight belongs to it. -/
structure Endless (v₀ : IbvVirtualQp) (wr : IbvSendWr) (v : IbvVirtualQp) : Prop where
  front : ∃ w, v.pendingSendVirtualWrQue_ = [w] ∧ w.wr = wr ∧ w.remainingMsgCnt ≤ 0 ∧
    w.sendExtraNotifyImm = false
  next : v.nextSendPhysicalQpIdx_ < v.physicalQps_.length
  route : v.qpNumToIdx_ = v₀.qpNumToIdx_
  nums : v.qps.map IbvQp.qp_num = v₀.qps.map IbvQp.qp_num
  room : v.maxMsgCntPerQp_ = v₀.maxMsgCntPerQp_
  parts : ∀ q ∈ v.physicalQps_, q.physicalSendWrStatus_ = q.sq.outstanding.map SendWqe.status ∧
    ∀ x ∈ q.sq.outstanding, x.wr.signaled ∧ x.virtualWrId = wr.wr_id

theorem Endless.round (hop : Supported wr.opcode) (hreported : wr.Reported) (h : Endless v₀ wr v)
    (hround : mapPendingSendRound (v, none) = .ok (b, v', k')) : Endless v₀ wr v' ∧ k' = none ∧
      (b = false → ∃ q ∈ v'.physicalQps_, ¬ v₀.hasRoom q.physicalSendWrStatus_.length) := by
  rcases h.front with ⟨w, hpend, rfl, hleft, hextra⟩
  rcases selectSendQp_spec h.next hop (k := none) (by simp) with
    ⟨o, n, k, hselect, hn, _, _, hk, hfull⟩
  have hnone : k = none := by
    cases k with
    | none => rfl
    | some i => cases hk i rfl
  subst hnone
  rw [mapPendingSendRound_cons hpend, hselect] at hround
  simp only [bind, Except.bind] at hround
  have hnext : Endless v₀ w.wr { v with nextSendPhysicalQpIdx_ := n } :=
    ⟨h.front, hn, h.route, h.nums, h.room, h.parts⟩
  cases o with
  | none =>
    cases hround
    refine ⟨hnext, rfl, fun _ => ?_⟩
    rcases hfull rfl with ⟨q, hq, hroom⟩
    rw [hasRoom, h.room] at hroom
    exact ⟨q, hq, hroom⟩
  | some i =>
    cases hpost : postSegment { v with nextSendPhysicalQpIdx_ := n } i w [] with
    | error e =>
      simp only [hpost] at hround
      cases hround
    | ok t =>
      simp only [hpost] at hround
      cases hround
      rcases postSegment_of_ok hpost with ⟨q, x, g, tracker, ns, hq, _, _, _, _, _, hsig, rfl⟩
      have hqp : v.qp? (some i) = some q := hq
      refine ⟨⟨?_, ?_, h.route, ?_, h.room, ?_⟩, rfl, by simp⟩
      · have hstay : ¬ w.remainingMsgCnt - 1 = 0 := by omega
        simp only [advanced_plain hextra, if_neg hstay]
        refine ⟨_, rfl, rfl, ?_, hextra⟩
        simp only
        omega
      · simp only [List.length_set]
        exact hn
      · rw [← h.nums]
        exact map_setQp IbvQp.qp_num hqp (rfl : (q.postSend x w.wr.wr_id).qp_num = q.qp_num)
      · intro p hp
        rcases List.mem_or_eq_of_mem_set hp with hp | rfl
        · exact h.parts p hp
        · rcases h.parts q (List.mem_of_getElem? hq) with ⟨hmirror, hall⟩
          constructor
          · simp [IbvQp.postSend, hmirror, SendWqe.status]
          · intro y hy
            simp only [IbvQp.postSend, WorkQueue.outstanding_post, List.mem_append,
              List.mem_singleton] at hy
            rcases hy with hy | rfl
            · exact hall y hy
            · exact ⟨hsig hop hreported, rfl⟩

theorem map_endless (hop : Supported wr.opcode) (hreported : wr.Reported)
    (h : Endless v₀ wr v) (hmap : v.mapPendingSendQueToPhysicalQp none = .ok v') :
    Endless v₀ wr v' ∧ ∃ q ∈ v'.physicalQps_, ¬ v₀.hasRoom q.physicalSendWrStatus_.length := by
  rw [mapPendingSendQueToPhysicalQp] at hmap
  cases hloop : loop .diverged mapPendingSendRound (sendRounds v.pendingSendVirtualWrQue_)
      (v, none) with
  | error e =>
    rw [hloop] at hmap
    cases hmap
  | ok s =>
    rw [hloop] at hmap
    cases hmap
    apply loop_post_of_ok (fun s => Endless v₀ wr s.1 ∧ s.2 = none) (fun s => Endless v₀ wr s.1 ∧
      ∃ q ∈ s.1.physicalQps_, ¬ v₀.hasRoom q.physicalSendWrStatus_.length) ?_ ?_ ⟨h, rfl⟩ hloop
    · rintro ⟨u, k⟩ ⟨u', k'⟩ hround ⟨hu, rfl⟩
      rcases hu.round hop hreported hround with ⟨hu', hk, _⟩
      exact ⟨hu', hk⟩
    · rintro ⟨u, k⟩ ⟨u', k'⟩ hround ⟨hu, rfl⟩
      rcases hu.round hop hreported hround with ⟨hu', _, hfull⟩
      exact ⟨hu', hfull rfl⟩

end IbvVirtualQp

namespace Endpoint

open IbvVirtualQp (InRange Supported Fresh Once Endless u32_of_lt i32_of_ge u32_negative)

variable {e s : Endpoint} {wr : IbvSendWr} {v : IbvVirtualQp} {i : ℕ} {q : IbvQp}

theorem postSend_of_ok (hreported : wr.Reported) (h : e.postSend wr = .ok s) :
    ∃ g segments n extra v, wr.sg_list = some g ∧
      IbvVirtualQp.segmentCount g.length e.vqp.maxMsgSize_ = .ok segments ∧
      extra = decide (wr.opcode = .IBV_WR_RDMA_WRITE_WITH_IMM ∧
        e.vqp.loadBalancingScheme_ = .SPRAY) ∧
      (n = if extra then segments + 1 else segments) ∧
      { e.vqp with pendingSendVirtualWrQue_ := e.vqp.pendingSendVirtualWrQue_ ++
        [VirtualSendWr.ofWr wr n extra] }.mapPendingSendQueToPhysicalQp none = .ok v ∧
      s.vqp = v ∧ (s.cqs s.sendCq).virtualWrIdToVirtualWc_ wr.wr_id =
        some (some (.send s.sendQue.back)) ∧
      s.lastWc = some (.fresh wr.wr_id v.virtualQpNum_ n extra) := by
  rw [Endpoint.postSend] at h
  cases hpost : e.vqp.postSend wr with
  | error f =>
    rw [hpost] at h
    cases h
  | ok r =>
    rcases r with ⟨request, v⟩
    rw [hpost] at h
    cases h
    rcases IbvVirtualQp.postSend_of_ok hpost with
      ⟨g, segments, n, extra, hg, hcount, hextra, hn, rfl, hmap⟩
    have hsig : wr.signaled ∨ wr.opcode = .IBV_WR_RDMA_WRITE_WITH_IMM := hreported.symm
    refine ⟨g, segments, n, extra, v, hg, hcount, hextra, hn, hmap, ?_, ?_, ?_⟩
    · rfl
    · simp only [submitRequestToVirtualCq, IbvVirtualCq.processRequest, if_pos hsig, updateCq, sendQue,
        Function.update_self]
    · simp only [submitRequestToVirtualCq, IbvVirtualCq.processRequest, if_pos hsig, lastWc, sendQue,
        updateCq, Function.update_self, StableDeque.get?_back]

theorem processRequest_send_failed {n wrId virtualWrId : ℕ} {sts : List PhysicalWrStatus} {f : Fault}
    (hidx : v.idxOfQpNum n = .ok (some i)) (hq : v.qp? (some i) = some q)
    (hst : q.physicalSendWrStatus_ = ⟨wrId, virtualWrId⟩ :: sts) (hmap : (v.setQp (some i) { q with
      physicalSendWrStatus_ := sts }).mapPendingSendQueToPhysicalQp (some i) = .error f) :
    v.processRequest ⟨.SEND, wrId, n, 0⟩ = .error f := by
  simp only [IbvVirtualQp.processRequest, hidx, bind, Except.bind, hq, IbvVirtualQp.processSend, hst,
    ne_eq, not_true_eq_false, if_false]
  rw [hmap]

/-- What a successful completion on a data QP leaves, when the last send is the one that completes. -/
theorem complete_of_ok (hwired : e.vqp.Wired) (hq : e.vqp.qp? (some i) = some q) {x : SendWqe}
    {xs : List SendWqe} (hout : q.sq.outstanding = x :: xs) (hsig : x.wr.signaled)
    (hmirror : q.physicalSendWrStatus_ = q.sq.outstanding.map SendWqe.status) {w : VirtualWc}
    (hmap : (e.cqs e.sendCq).virtualWrIdToVirtualWc_ x.virtualWrId =
      some (some (.send e.sendQue.back))) (hlast : e.lastWc = some w) {wc : IbvWc}
    (h : e.complete (some i, wc) = .ok s) :
    ∃ sq v pwc, sq.outstanding = xs ∧ sq.posted = q.sq.posted ∧
      (e.vqp.setQp (some i) (IbvVirtualQp.retireSend q sq
        (xs.map SendWqe.status))).mapPendingSendQueToPhysicalQp (some i) = .ok v ∧
      s.lastWc = some (w.charge pwc) ∧
      (¬ (w.remainingMsgCnt - 1 = 1 ∧ w.sendExtraNotifyImm) → s.vqp = v) := by
  rcases WorkQueue.completeNext_of_front (fun w => w.wr.signaled) hout hsig with
    ⟨sq, hcomplete, hsq, hposted, _⟩
  have hcomp : q.completeSend = some (x, { q with sq := sq }) := by
    simp only [IbvQp.completeSend, hcomplete, Option.map_some]
  rw [hout, List.map_cons] at hmirror
  have hwired' : (e.vqp.setQp (some i) { q with sq := sq }).Wired :=
    hwired.of_eq rfl (IbvVirtualQp.map_setQp _ hq rfl)
  have hget : (e.vqp.setQp (some i) { q with sq := sq }).qp? (some i) = some { q with sq := sq } := by
    rw [IbvVirtualQp.qp?_setQp hq, if_pos rfl]
  have hidx := hwired'.index (some i) _ hget
  have hretire : (e.vqp.setQp (some i) { q with sq := sq }).setQp (some i) { q with
      sq := sq, physicalSendWrStatus_ := xs.map SendWqe.status } =
        e.vqp.setQp (some i) (IbvVirtualQp.retireSend q sq (xs.map SendWqe.status)) :=
    IbvVirtualQp.setQp_setQp e.vqp (some i) _ _
  have hst : ({ q with sq := sq } : IbvQp).physicalSendWrStatus_ =
      ⟨x.wr.wr_id, x.virtualWrId⟩ :: xs.map SendWqe.status := hmirror
  cases hpend : (e.vqp.setQp (some i) (IbvVirtualQp.retireSend q sq
      (xs.map SendWqe.status))).mapPendingSendQueToPhysicalQp (some i) with
  | error f =>
    rw [← hretire] at hpend
    have hfail := processRequest_send_failed hidx hget hst hpend
    simp only [Endpoint.complete, sendCompletion, hq, hcomp, processSendWc, hfail, bind,
      Except.bind] at h
    cases h
  | ok v =>
    have hproc := IbvVirtualQp.processRequest_send_data hidx hget hst (by rw [hretire]; exact hpend)
    generalize hpwc : ({ wc with
      wr_id := x.wr.wr_id, qp_num := q.qp_num, opcode := wcOpcode x.wr.opcode } : IbvWc) = pwc
    rcases charge_last pwc hmap hlast with ⟨cq, hcharge, _, hback, hgetcq⟩
    rw [← hpwc] at hcharge
    have heq := sendCompletion_eq hq hcomp wc hproc hcharge
    rw [Endpoint.complete, heq, VirtualWc.charge_remainingMsgCnt,
      VirtualWc.charge_sendExtraNotifyImm] at h
    have hwc : (({ e with vqp := v }.updateCq e.sendCq cq).lastWc) = some (w.charge pwc) := by
      simp only [lastWc, sendQue, updateCq, Function.update_self, hback]
      exact hgetcq
    refine ⟨sq, v, pwc, hsq, hposted, hpend, ?_, ?_⟩
    · split at h
      · cases hnotify : v.processRequest ⟨.SEND_NOTIFY, x.virtualWrId, q.qp_num, 0⟩ with
        | error f =>
          rw [hnotify] at h
          cases h
        | ok r =>
          rw [hnotify] at h
          cases h
          exact hwc
      · cases h
        exact hwc
    · intro hnot
      rw [if_neg hnot] at h
      cases h
      rfl

/-! ### What breaks the limits -/

theorem Idle.statuses (h : e.Idle) : ∀ q ∈ e.vqp.physicalQps_, q.physicalSendWrStatus_ = [] := by
  intro q hq
  have hmem : q ∈ e.vqp.qps := List.mem_cons_of_mem _ hq
  rw [h.sending.mirror q hmem, h.quiet q hmem, List.map_nil]

theorem hasRoom_zero (hcnt : INT_MIN ≤ e.vqp.maxMsgCntPerQp_ ∧ e.vqp.maxMsgCntPerQp_ ≤ INT_MAX)
    (hzero : e.vqp.maxMsgCntPerQp_ ≠ 0) : e.vqp.hasRoom 0 := by
  rw [IbvVirtualQp.hasRoom, decide_eq_true_eq]
  simp only [u64, INT_MIN, INT_MAX] at hcnt ⊢
  omega

theorem Exact.posted (h : Exact e wr) : ∃ s bound, e.postSend wr = .ok s ∧ Within e wr bound s := by
  rcases h with ⟨s, bound, hpost, hall⟩
  rcases hall [] (by simp) with ⟨t, hrun, ht⟩
  cases hrun
  exact ⟨s, bound, hpost, ht⟩

theorem Representable.copy (hwr : Representable wr) (n : ℤ) (extra : Bool) :
    (VirtualSendWr.ofWr wr n extra).wr = wr ∧ (VirtualSendWr.ofWr wr n extra).offset = 0 := by
  rcases hwr.sg with ⟨g, hg, _⟩
  rw [Option.mem_def] at hg
  simp [VirtualSendWr.ofWr, hg, hwr.num_sge]

theorem Exact.room (h : Exact e wr) (hidle : e.Idle) (hwr : Representable wr) :
    e.vqp.maxMsgCntPerQp_ ≠ 0 := by
  intro hzero
  rcases h.posted with ⟨s, bound, hpost, hwithin⟩
  rcases postSend_of_ok hwr.reported hpost with
    ⟨g, segments, n, extra, v, _, _, _, _, hmap, rfl, _⟩
  rw [hidle.pending, List.nil_append] at hmap
  have hop : Supported (VirtualSendWr.ofWr wr n extra).wr.opcode := by
    rw [(hwr.copy n extra).1]
    exact hwr.opcode
  rcases IbvVirtualQp.map_without_room hidle.statuses hop hidle.sending.next hzero hmap with
    ⟨next, _, hv⟩
  have hquiet : ∀ q ∈ s.vqp.qps, q.sq.outstanding = [] := by
    rw [hv]
    exact hidle.quiet
  have hpend := (hwithin.settled hquiet).1
  rw [hv] at hpend
  cases hpend

variable {g : IbvSge}

theorem Exact.length_lt (h : Exact e wr) (hidle : e.Idle) (hm : 1 ≤ e.vqp.maxMsgSize_)
    (hmax : e.vqp.maxMsgSize_ < 2 ^ 31)
    (hcnt : INT_MIN ≤ e.vqp.maxMsgCntPerQp_ ∧ e.vqp.maxMsgCntPerQp_ ≤ INT_MAX)
    (hwr : Representable wr) (hg : wr.sg_list = some g) : g.length < 2 ^ 31 := by
  have hlen : g.length < 2 ^ 32 := by
    rcases hwr.sg with ⟨g', hg', hlen⟩
    rw [Option.mem_def, hg, Option.some.injEq] at hg'
    rw [hg']
    exact hlen
  by_contra hge
  have hzero := h.room hidle hwr
  rcases h.posted with ⟨s, bound, hpost, hwithin⟩
  rcases postSend_of_ok hwr.reported hpost with
    ⟨_, segments, n, extra, v, _, _, _, _, hmap, rfl, _⟩
  rcases hwr.copy n extra with ⟨hcopy, hoff⟩
  rw [hidle.pending, List.nil_append] at hmap
  have hop : Supported (VirtualSendWr.ofWr wr n extra).wr.opcode := by
    rw [hcopy]
    exact hwr.opcode
  have hsg : (VirtualSendWr.ofWr wr n extra).wr.sg_list = some g := by
    rw [hcopy]
    exact hg
  rcases IbvVirtualQp.map_first_segment hidle.statuses hop hidle.sending.next
    (hasRoom_zero hcnt hzero) hsg hmap with ⟨x, more, hperm, y, hy, hlength⟩
  rcases hwithin.segments with ⟨new, hnew, _, hsizes⟩
  have hx : x ∈ new := by
    have hsame := (List.perm_append_left_iff _).mp (hperm.symm.trans hnew)
    exact hsame.subset List.mem_cons_self
  have hsize := hsizes x hx y hy
  rw [hoff, sub_zero] at hlength
  rw [u32_of_lt hlen, i32_of_ge (by omega) hlen, min_eq_left (by omega), u32_negative hlen] at hlength
  omega

theorem segmentCount_zero {m : ℤ} (hm : 1 ≤ m) (hmax : m < 2 ^ 31) :
    IbvVirtualQp.segmentCount 0 m = .ok 0 := by
  rcases Int.eq_ofNat_of_zero_le (by omega : 0 ≤ m) with ⟨n, rfl⟩
  have hsum : u32 (((0 : ℕ) : ℤ) + n - 1) = n - 1 := by
    rw [show ((0 : ℕ) : ℤ) + n - 1 = ((n - 1 : ℕ) : ℤ) by omega]
    exact u32_of_lt (by omega)
  have hnone : (n - 1) / n = 0 := Nat.div_eq_of_lt (by omega)
  have hne : n ≠ 0 := by omega
  rw [IbvVirtualQp.segmentCount, u32_of_lt (by omega), if_neg hne, hsum, hnone]
  rfl

theorem map_of_nil {k : Option ℕ} (h : v.pendingSendVirtualWrQue_ = []) :
    v.mapPendingSendQueToPhysicalQp k = .ok v := by
  simp only [IbvVirtualQp.mapPendingSendQueToPhysicalQp, h, IbvVirtualQp.sendRounds, List.map_nil,
    List.sum_nil, zero_add, loop, IbvVirtualQp.mapPendingSendRound_nil h, Except.map]

theorem counts_below_zero (hidle : e.Idle)
    (hcnt : INT_MIN ≤ e.vqp.maxMsgCntPerQp_ ∧ e.vqp.maxMsgCntPerQp_ ≤ INT_MAX)
    (hzero : e.vqp.maxMsgCntPerQp_ ≠ 0) (hwr : Representable wr)
    (hmap : { e.vqp with pendingSendVirtualWrQue_ :=
      [VirtualSendWr.ofWr wr 0 false] }.mapPendingSendQueToPhysicalQp none = .ok s.vqp)
    (hptr : (s.cqs s.sendCq).virtualWrIdToVirtualWc_ wr.wr_id = some (some (.send s.sendQue.back)))
    (hlast : s.lastWc = some (.fresh wr.wr_id s.vqp.virtualQpNum_ 0 false)) :
    ∃ c, (e.vqp.qp? c.1).isSome ∧ ∀ t, s.complete c = .ok t →
      ∃ w ∈ t.lastWc, w.remainingMsgCnt = -1 := by
  have hstart : Endless e.vqp wr { e.vqp with pendingSendVirtualWrQue_ :=
      [VirtualSendWr.ofWr wr 0 false] } :=
    { front := ⟨_, rfl, (hwr.copy 0 false).1, le_rfl, rfl⟩
      next := hidle.sending.next
      route := rfl
      nums := rfl
      room := rfl
      parts := by
        intro q hq
        have hmem : q ∈ e.vqp.qps := List.mem_cons_of_mem _ hq
        refine ⟨hidle.sending.mirror q hmem, ?_⟩
        rw [hidle.quiet q hmem]
        simp }
  rcases IbvVirtualQp.map_endless hwr.opcode hwr.reported hstart hmap with ⟨hend, q, hq, hroom⟩
  rcases hend.parts q hq with ⟨hmirror, hall⟩
  rcases List.mem_iff_getElem?.mp hq with ⟨i, hi⟩
  cases hout : q.sq.outstanding with
  | nil =>
    rw [hmirror, hout] at hroom
    exact absurd (hasRoom_zero hcnt hzero) hroom
  | cons x xs =>
    rcases hall x (by rw [hout]; exact List.mem_cons_self) with ⟨hsig, hid⟩
    refine ⟨(some i, {}), ?_, ?_⟩
    · have hlen := congrArg List.length hend.nums
      rw [List.length_map, List.length_map, IbvVirtualQp.qps, IbvVirtualQp.qps, List.length_cons,
        List.length_cons, Nat.add_right_cancel_iff] at hlen
      have hlt : i < e.vqp.physicalQps_.length := hlen ▸ (List.getElem?_eq_some_iff.mp hi).1
      exact Option.isSome_iff_exists.mpr ⟨_, List.getElem?_eq_getElem hlt⟩
    · intro t ht
      have hwired := hidle.sending.wired.of_eq hend.route hend.nums
      rw [← hid] at hptr
      rcases complete_of_ok hwired hi hout hsig hmirror hptr hlast ht with ⟨_, _, pwc, _, _, _, hwc, _⟩
      exact ⟨_, hwc, rfl⟩

/-- With a notification to follow, the empty segment of an empty request is taken for the last
part. -/
theorem loses_notice (hidle : e.Idle) (hextra : e.vqp.Extra wr)
    (hcnt : INT_MIN ≤ e.vqp.maxMsgCntPerQp_ ∧ e.vqp.maxMsgCntPerQp_ ≤ INT_MAX)
    (hzero : e.vqp.maxMsgCntPerQp_ ≠ 0) (hwr : Representable wr)
    (hmap : { e.vqp with pendingSendVirtualWrQue_ :=
      [VirtualSendWr.ofWr wr 1 true] }.mapPendingSendQueToPhysicalQp none = .ok s.vqp)
    (hptr : (s.cqs s.sendCq).virtualWrIdToVirtualWc_ wr.wr_id = some (some (.send s.sendQue.back)))
    (hlast : s.lastWc = some (.fresh wr.wr_id s.vqp.virtualQpNum_ 1 true)) :
    ∃ c, (e.vqp.qp? c.1).isSome ∧ ∀ t, s.complete c = .ok t →
      (∀ q ∈ t.vqp.qps, q.sq.outstanding = []) ∧ t.vqp.notices = e.vqp.notices := by
  have hcopy := (hwr.copy 1 true).1
  have hop : Supported (VirtualSendWr.ofWr wr 1 true).wr.opcode := by
    rw [hcopy]
    exact hwr.opcode
  rcases IbvVirtualQp.map_once hidle.statuses hop hidle.sending.next (hasRoom_zero hcnt hzero) rfl
    (by rw [hcopy]; exact hwr.reported) hmap with ⟨n, i, q, x, tracker, ns, hq, hsig, hv⟩
  rw [hcopy] at hv
  have hmem : q ∈ e.vqp.qps := List.mem_cons_of_mem _ (List.mem_of_getElem? hq)
  have hout : (q.postSend x wr.wr_id).sq.outstanding = [⟨x, wr.wr_id⟩] := by
    rw [IbvQp.postSend, WorkQueue.outstanding_post, hidle.quiet q hmem, List.nil_append]
  have hmirror : (q.postSend x wr.wr_id).physicalSendWrStatus_ =
      (q.postSend x wr.wr_id).sq.outstanding.map SendWqe.status := by
    rw [hout, IbvQp.postSend, hidle.sending.mirror q hmem, hidle.quiet q hmem]
    rfl
  have hlt := (List.getElem?_eq_some_iff.mp hq).1
  have hi : s.vqp.qp? (some i) = some (q.postSend x wr.wr_id) := by
    rw [hv]
    simp only [IbvVirtualQp.qp?, List.getElem?_set, if_pos, hlt]
  have hqp : e.vqp.qp? (some i) = some q := hq
  have hwired : s.vqp.Wired := by
    rw [hv]
    exact hidle.sending.wired.of_eq rfl
      (IbvVirtualQp.map_setQp IbvQp.qp_num hqp (rfl : (q.postSend x wr.wr_id).qp_num = q.qp_num))
  refine ⟨(some i, {}), Option.isSome_iff_exists.mpr ⟨q, hqp⟩, ?_⟩
  intro t ht
  rcases complete_of_ok hwired hi hout hsig hmirror hptr hlast ht with
    ⟨sq, u, pwc, hsq, _, hu, _, ht⟩
  have hlast : ¬ ((VirtualWc.fresh wr.wr_id s.vqp.virtualQpNum_ 1 true).remainingMsgCnt - 1 = 1 ∧
      (VirtualWc.fresh wr.wr_id s.vqp.virtualQpNum_ 1 true).sendExtraNotifyImm) := by
    rintro ⟨hone, _⟩
    exact absurd hone (by simp [VirtualWc.fresh])
  rw [map_of_nil (by rw [hv]; rfl), Except.ok.injEq] at hu
  rw [ht hlast, ← hu, hv]
  constructor
  · intro p hp
    rcases List.mem_cons.mp hp with rfl | hp
    · exact hidle.quiet _ List.mem_cons_self
    · simp only [IbvVirtualQp.setQp, List.set_set] at hp
      rcases List.mem_or_eq_of_mem_set hp with hp | rfl
      · exact hidle.quiet p (List.mem_cons_of_mem _ hp)
      · exact hsq
  · exact notices_of_spray hextra rfl rfl

theorem Exact.length_pos (h : Exact e wr) (hidle : e.Idle) (hm : 1 ≤ e.vqp.maxMsgSize_)
    (hmax : e.vqp.maxMsgSize_ < 2 ^ 31)
    (hcnt : INT_MIN ≤ e.vqp.maxMsgCntPerQp_ ∧ e.vqp.maxMsgCntPerQp_ ≤ INT_MAX)
    (hwr : Representable wr) (hg : wr.sg_list = some g) : 1 ≤ g.length := by
  have hzero := h.room hidle hwr
  by_contra hpos
  have hempty : g.length = 0 := by omega
  rcases h with ⟨s, bound, hpost, hall⟩
  rcases postSend_of_ok hwr.reported hpost with
    ⟨g', segments, n, extra, v, hg', hcount, hextra, hn, hmap, rfl, hptr, hlast⟩
  rw [hg, Option.some.injEq] at hg'
  subst hg'
  rw [hempty, segmentCount_zero hm hmax, Except.ok.injEq] at hcount
  subst hcount
  rw [hidle.pending, List.nil_append] at hmap
  have hone : ∀ c t, run complete s [c] = .ok t → s.complete c = .ok t := by
    intro c t hrun
    rw [run] at hrun
    split at hrun
    · rename_i t' ht'
      cases hrun
      exact ht'
    · cases hrun
  cases extra with
  | false =>
    subst hn
    rcases counts_below_zero hidle hcnt hzero hwr hmap hptr hlast with ⟨c, hc, hbad⟩
    rcases hall [c] (by simpa using hc) with ⟨t, hrun, hwithin⟩
    rcases hbad t (hone c t hrun) with ⟨w, hw, hneg⟩
    rcases hwithin.counter with ⟨w', hw', _, hnonneg, _⟩
    rw [Option.mem_def] at hw hw'
    rw [hw, Option.some.injEq] at hw'
    subst hw'
    omega
  | true =>
    subst hn
    have hspray : wr.opcode = .IBV_WR_RDMA_WRITE_WITH_IMM ∧
        e.vqp.loadBalancingScheme_ = .SPRAY := of_decide_eq_true hextra.symm
    rcases loses_notice hidle hspray hcnt hzero hwr hmap hptr hlast with ⟨c, hc, hbad⟩
    rcases hall [c] (by simpa using hc) with ⟨t, hrun, hwithin⟩
    rcases hbad t (hone c t hrun) with ⟨hquiet, hsame⟩
    have hmore := (hwithin.settled hquiet).2.2 hspray.1
    omega

theorem Exact.not_overflows (h : Exact e wr) (hm : 1 ≤ e.vqp.maxMsgSize_) (hwr : Representable wr) :
    ¬ e.vqp.Overflows wr := by
  rintro ⟨hop, hscheme, hone, g, hg, hlen⟩
  rw [Option.mem_def] at hg
  rcases h.posted with ⟨s, bound, hpost, _⟩
  have hseg : IbvVirtualQp.segments e.vqp.maxMsgSize_ g.length = 2 ^ 31 - 1 := by
    rw [IbvVirtualQp.segments, hone, hlen]
    rfl
  have hparts : IbvVirtualQp.Segmentable e.vqp.maxMsgSize_ g.length :=
    ⟨by omega, by omega, by rw [hseg, INT_MAX]; omega⟩
  have hcount := (IbvVirtualQp.segmentCount_spec hm hparts).1
  rw [hseg] at hcount
  have hbad : e.vqp.postSend wr = .error .undefined := by
    have hnum : ¬ 1 < wr.num_sge := by
      rw [hwr.num_sge]
      decide
    have hnot : ¬ (wr.opcode = .IBV_WR_SEND_WITH_IMM ∨ wr.opcode = .IBV_WR_ATOMIC_CMP_AND_SWP ∨
        wr.opcode = .IBV_WR_ATOMIC_FETCH_AND_ADD) := by
      simp [hop]
    have hextra : decide (wr.opcode = .IBV_WR_RDMA_WRITE_WITH_IMM ∧
        e.vqp.loadBalancingScheme_ = .SPRAY) = true := decide_eq_true ⟨hop, hscheme⟩
    have hmost : (((2 ^ 31 - 1 : ℕ) : ℤ)) = INT_MAX := by
      rw [INT_MAX]
      omega
    simp only [IbvVirtualQp.postSend, hnum, hnot, if_false, hg, hextra, hcount, bind, Except.bind,
      hmost, and_self, if_true]
  rw [Endpoint.postSend, hbad] at hpost
  cases hpost

/-- A send posted where nothing is in flight is finished, in messages that fit and with one
notification, exactly when it has 1 to `2 ^ 31 - 1` bytes, the QPs take messages and its parts are
an `int`. -/
theorem exact_iff_inRange (hidle : e.Idle) (hm : 1 ≤ e.vqp.maxMsgSize_ ∧ e.vqp.maxMsgSize_ < 2 ^ 31)
    (hcnt : INT_MIN ≤ e.vqp.maxMsgCntPerQp_ ∧ e.vqp.maxMsgCntPerQp_ ≤ INT_MAX)
    (hwr : Representable wr) :
    Exact e wr ↔ (∃ g ∈ wr.sg_list, 1 ≤ g.length ∧ g.length < 2 ^ 31) ∧
      e.vqp.maxMsgCntPerQp_ ≠ 0 ∧ ¬ e.vqp.Overflows wr := by
  constructor
  · intro h
    rcases hwr.sg with ⟨g, hg, _⟩
    exact ⟨⟨g, hg, h.length_pos hidle hm.1 hm.2 hcnt hwr hg,
      h.length_lt hidle hm.1 hm.2 hcnt hwr hg⟩, h.room hidle hwr, h.not_overflows hm.1 hwr⟩
  · rintro ⟨hlen, hzero, hover⟩
    exact hidle.exact_of_inRange hm.1 hm.2 hcnt hzero ⟨hwr.num_sge, hlen, hwr.opcode⟩ hwr.reported
      hover

theorem idle_create {qpNums : List ℕ} {notifyQpNum : ℕ} (hne : qpNums ≠ [])
    (hnodup : (notifyQpNum :: qpNums).Nodup) (maxMsgCntPerQp maxMsgSize : ℤ)
    (scheme : LoadBalancingScheme) (sendCq recvCq : ℕ) :
    (create qpNums notifyQpNum maxMsgCntPerQp maxMsgSize scheme sendCq recvCq).Idle where
  sending := IbvVirtualQp.sending_create hne hnodup maxMsgCntPerQp maxMsgSize scheme
  quiet q hq := by
    rcases IbvVirtualQp.fresh_of_mem_create hq with ⟨n, rfl⟩
    rfl
  pending := rfl
  notifies := rfl
  numbered := show 0 < kSeqNumMask by decide

/-- A write of 250 bytes with immediate data on two QPs, in messages of 100 bytes. -/
theorem exact_iff_inRange_write : Exact (create [10, 11] 12 (-1) 100 .DQPLB 0 1)
      ⟨1, some ⟨0, 250, 0⟩, 1, .IBV_WR_RDMA_WRITE_WITH_IMM, IBV_SEND_SIGNALED, 0, 0, 0⟩ ↔
    (∃ g ∈ some (⟨0, 250, 0⟩ : IbvSge), 1 ≤ g.length ∧ g.length < 2 ^ 31) ∧ (-1 : ℤ) ≠ 0 ∧
      ¬ (create [10, 11] 12 (-1) 100 .DQPLB 0 1).vqp.Overflows
        ⟨1, some ⟨0, 250, 0⟩, 1, .IBV_WR_RDMA_WRITE_WITH_IMM, IBV_SEND_SIGNALED, 0, 0, 0⟩ :=
  exact_iff_inRange (idle_create (by decide) (by decide) (-1) 100 .DQPLB 0 1) (by decide) (by decide)
    ⟨rfl, ⟨_, rfl, by decide⟩, by decide, Or.inl rfl⟩

/-- An empty write with immediate data in SPRAY mode: its only segment completes, and nothing
notifies the receiver. -/
theorem not_exact_empty_write :
    ¬ ∀ (e : Endpoint) (wr : IbvSendWr), e.Idle →
      1 ≤ e.vqp.maxMsgSize_ ∧ e.vqp.maxMsgSize_ < 2 ^ 31 →
      INT_MIN ≤ e.vqp.maxMsgCntPerQp_ ∧ e.vqp.maxMsgCntPerQp_ ≤ INT_MAX →
      Representable wr → Exact e wr := by
  intro hall
  rcases hall (create [10, 11] 12 4 100 .SPRAY 0 1)
    ⟨1, some ⟨0, 0, 0⟩, 1, .IBV_WR_RDMA_WRITE_WITH_IMM, IBV_SEND_SIGNALED, 0, 0, 0⟩
    (idle_create (by decide) (by decide) 4 100 .SPRAY 0 1) (by decide) (by decide)
    ⟨rfl, ⟨_, rfl, by decide⟩, by decide, Or.inl rfl⟩ with ⟨e', bound, hpost, hruns⟩
  cases hpost
  rcases hruns [(some 0, {})] (by decide) with ⟨s, hrun, hwithin⟩
  cases hrun
  exact absurd ((hwithin.settled (by decide)).2.2 rfl) (by decide)

end Endpoint
end TorchComms.Ibverbx
