import TorchComms.Ibverbx.Regions
import TorchComms.Ibverbx.VirtualQpRuns

/-! # The segments of a send are a partition of it

The log of all data segments, in posting order, is put together from the parts of the requests in
the order in which they were posted: whole requests first, then what has been posted of the
request at the front of the queue.
-/
namespace TorchComms.Ibverbx

open Foundation

namespace IbvVirtualQp

/-- What a posted segment says: its request, its local bytes and its remote address. -/
def segment (x : SendWqe) : ℕ × Option IbvSge × ℕ :=
  (x.virtualWrId, x.wr.sg_list, x.wr.remote_addr)

/-- The segment of a request for a range of its bytes; a SEND has no remote address. -/
def segmentAt (wr : IbvSendWr) (g : IbvSge) (p : ℕ × ℕ) : ℕ × Option IbvSge × ℕ :=
  (wr.wr_id, some ⟨u64 (g.addr + p.1), p.2, g.lkey⟩,
    if wr.opcode = .IBV_WR_SEND then 0 else u64 (wr.remote_addr + p.1))

/-- The segments are the first `e` bytes of a request, in ranges that lie one behind the other and
do not meet. -/
def Covers (m : ℤ) (wr : IbvSendWr) (g : IbvSge) (e : ℕ) (part : List SendWqe) : Prop :=
  ∃ ranges, Tiles m.toNat 0 ranges e ∧ (ranges.Pairwise fun p p' => p.1 + p.2 ≤ p'.1) ∧
    part.map segment = ranges.map (segmentAt wr g)

/-- The segments are the request, as few as the size of a message allows. -/
def Whole (m : ℤ) (wr : IbvSendWr) (part : List SendWqe) : Prop :=
  ∃ g, wr.sg_list = some g ∧ Covers m wr g g.length part ∧ part.length = segments m g.length

/-- The segments are those posted of the request at the front. -/
def Started (m : ℤ) (part : List SendWqe) : List VirtualSendWr → Prop
  | [] => part = []
  | w :: _ => ∃ g e, w.wr.sg_list = some g ∧ e < g.length ∧ Covers m w.wr g e part

/-- Every data segment ever posted, in some order. -/
def dataSegments (v : IbvVirtualQp) : List SendWqe :=
  (v.physicalQps_.map fun q => q.sq.posted).flatten

/-- The log has every data segment, in the order in which they were posted. -/
structure PostingOrder (v : IbvVirtualQp) (log : List SendWqe) : Prop where
  all : log.Perm v.dataSegments
  sorted : log.Pairwise fun x y => x.wr.wr_id < y.wr.wr_id
  used : ∀ x ∈ log, x.wr.wr_id < v.nextPhysicalWrId_

/-- The requests `reqs` have been posted. -/
def Partitioned (m : ℤ) (reqs : List IbvSendWr) (v : IbvVirtualQp) : Prop :=
  ∃ done parts front, reqs = done ++ v.pendingSendVirtualWrQue_.map VirtualSendWr.wr ∧
    List.Forall₂ (Whole m) done parts ∧ Started m front v.pendingSendVirtualWrQue_ ∧
    v.PostingOrder (parts.flatten ++ front)

/-! ### What is kept -/

/-- A pending request of which the segments `part` have been posted. -/
def Partly (m : ℤ) (w : VirtualSendWr) (part : List SendWqe) : Prop :=
  ∃ (g : IbvSge) (e n : ℕ), w.wr.sg_list = some g ∧ g.length < 2 ^ 31 ∧ w.offset = e ∧
    (w.remainingMsgCnt = n + if w.sendExtraNotifyImm then 1 else 0) ∧
    Spans m.toNat g.length n e ∧ Covers m w.wr g e part ∧ part.length + n = segments m g.length

def Supported (o : IbvWrOpcode) : Prop :=
  o = .IBV_WR_RDMA_WRITE ∨ o = .IBV_WR_RDMA_WRITE_WITH_IMM ∨ o = .IBV_WR_RDMA_READ ∨
    o = .IBV_WR_SEND

/-- Only the request at the front has been started. -/
def InProgress (m : ℤ) (part : List SendWqe) : List VirtualSendWr → Prop
  | [] => part = []
  | w :: rest => Partly m w part ∧ ∀ x ∈ rest, Partly m x []

structure Splitting (m : ℤ) (reqs : List IbvSendWr) (v : IbvVirtualQp) : Prop where
  size : v.maxMsgSize_ = m
  wired : v.Wired
  next : v.nextSendPhysicalQpIdx_ < v.physicalQps_.length
  opcode : ∀ w ∈ v.pendingSendVirtualWrQue_, Supported w.wr.opcode
  log : ∃ done parts front, reqs = done ++ v.pendingSendVirtualWrQue_.map VirtualSendWr.wr ∧
    List.Forall₂ (Whole m) done parts ∧ InProgress m front v.pendingSendVirtualWrQue_ ∧
    v.PostingOrder (parts.flatten ++ front)

variable {m : ℤ} {v v' v'' : IbvVirtualQp} {w : VirtualSendWr} {rest : List VirtualSendWr}
  {part : List SendWqe} {reqs : List IbvSendWr} {i : ℕ} {k : Option ℕ} {q q' : IbvQp}

theorem Partly.started (h : Partly m w part) (rest : List VirtualSendWr) :
    Started m part (w :: rest) := by
  rcases h with ⟨g, e, n, hg, _, _, _, hspans, hcovers, _⟩
  exact ⟨g, e, hg, hspans.lt, hcovers⟩

theorem Splitting.partitioned (h : Splitting m reqs v) : v.Partitioned m reqs := by
  rcases h.log with ⟨done, parts, front, hreqs, hwhole, hprogress, horder⟩
  refine ⟨done, parts, front, hreqs, hwhole, ?_, horder⟩
  cases hpend : v.pendingSendVirtualWrQue_ with
  | nil =>
    rw [hpend] at hprogress
    exact hprogress
  | cons w rest =>
    rw [hpend] at hprogress
    exact hprogress.1.started rest

theorem Partly.left_pos (h : Partly m w part) : 0 < w.remainingMsgCnt := by
  rcases h with ⟨g, e, n, _, _, _, hleft, hspans, _⟩
  have hpos := hspans.pos
  split at hleft <;> omega

theorem Partly.cuttable (h : Partly m w part) (hop : Supported w.wr.opcode) : Cuttable w := by
  have hpos := h.left_pos
  rcases h with ⟨g, e, n, hg, _, _, hleft, hspans, _⟩
  have hn := hspans.pos
  refine ⟨by rw [hg]; rfl, hpos, ?_, hop⟩
  intro hextra
  rw [if_pos hextra] at hleft
  omega

/-! ### One segment -/

theorem next_piece {s n e : ℕ} (hm : 1 ≤ m) (hs : s < 2 ^ 31) (hspans : Spans m.toNat s n e) :
    u32 (min (i32 (u32 ((s : ℤ) - e))) m) = min (s - e) m.toNat ∧
      i32 (u32 ((e : ℤ) + (min (s - e) m.toNat : ℕ))) = (e + min (s - e) m.toNat : ℕ) := by
  have hlt := hspans.lt
  have hrest : i32 (u32 ((s : ℤ) - e)) = (s - e : ℕ) := by
    rw [show (s : ℤ) - e = (s - e : ℕ) by omega, u32_of_lt (by omega), i32_of_lt (by omega)]
  constructor
  · rw [hrest, show min ((s - e : ℕ) : ℤ) m = (min (s - e) m.toNat : ℕ) by omega,
      u32_of_lt (by omega)]
  · rw [← Nat.cast_add, u32_of_lt (by omega), i32_of_lt (by omega)]

variable {wr : IbvSendWr} {g : IbvSge}
  {response : VirtualQpResponse} {x : SendWqe} {length : ℕ} {α : Type}

theorem Covers.concat {e n : ℕ} (h : Covers m wr g e part) (hpos : 1 ≤ n) (hle : n ≤ m.toNat)
    (hx : segment x = segmentAt wr g (e, n)) : Covers m wr g (e + n) (part ++ [x]) := by
  rcases h with ⟨ranges, htiles, _, hsegments⟩
  have hnext := htiles.concat hpos hle
  refine ⟨ranges ++ [(e, n)], hnext, hnext.pairwise, ?_⟩
  rw [List.map_append, List.map_append, hsegments, List.map_singleton, List.map_singleton, hx]

/-- After a segment the request is whole and leaves the queue, or it stays at the front. -/
theorem Partly.next (hm : 1 ≤ m) (h : Partly m w part) (rest : List VirtualSendWr) (hg : w.wr.sg_list = some g)
    (hx : segment x = segmentAt w.wr g
      (w.offset.toNat, u32 (min (i32 (u32 (g.length - w.offset))) m))) :
    Whole m w.wr (part ++ [x]) ∧
        advanced w rest (u32 (min (i32 (u32 (g.length - w.offset))) m)) = rest ∨
      ∃ w', advanced w rest (u32 (min (i32 (u32 (g.length - w.offset))) m)) = w' :: rest ∧
        w'.wr = w.wr ∧ Partly m w' (part ++ [x]) := by
  rcases h with ⟨g', e, n, hg', hlen, hoff, hleft, hspans, hcovers, hcount⟩
  rw [hg, Option.some.injEq] at hg'
  subst hg'
  rcases next_piece hm hlen hspans with ⟨hsize, hsum⟩
  have hlt := hspans.lt
  have hpos : 1 ≤ min (g.length - e) m.toNat :=
    Nat.le_min.mpr ⟨Nat.sub_pos_of_lt hlt, Int.pos_iff_toNat_pos.mp hm⟩
  rw [hoff, Int.toNat_natCast, hsize] at hx
  have hnext := hcovers.concat hpos (Nat.min_le_right _ _) hx
  have hpart : (part ++ [x]).length = part.length + 1 := by
    rw [List.length_append, List.length_singleton]
  rw [hoff, hsize]
  cases n with
  | zero => exact absurd hspans.pos (by decide)
  | succ n =>
    cases n with
    | zero =>
      left
      constructor
      · rw [hspans.last, Nat.add_sub_of_le (Nat.le_of_lt hlt)] at hnext
        exact ⟨g, hg, hnext, by omega⟩
      · rw [advanced, if_pos]
        split at hleft
        · rename_i hextra
          exact Or.inr ⟨by omega, hextra⟩
        · exact Or.inl (by omega)
    | succ n =>
      right
      refine ⟨_, if_neg ?_, rfl, ?_⟩
      · rintro (hone | ⟨hone, hextra⟩)
        · split at hleft <;> omega
        · rw [if_pos hextra] at hleft
          omega
      · rcases hspans.next with ⟨hmin, hspans'⟩
        refine ⟨g, e + m.toNat, n + 1, hg, hlen, ?_, ?_, hspans', ?_, ?_⟩
        · simp only [hoff, hsum]
          rw [hmin]
        · simp only
          omega
        · rw [hmin] at hnext
          exact hnext
        · omega

theorem map_set_perm {α β : Type*} {f : α → List β} {xs : List α} {a a' : α} {b : β}
    (ha : xs[i]? = some a) (hf : f a' = f a ++ [b]) :
    ((xs.set i a').map f).flatten.Perm ((xs.map f).flatten ++ [b]) := by
  rcases List.getElem?_eq_some_iff.mp ha with ⟨hlt, rfl⟩
  have hnew := ((List.set_perm_cons_eraseIdx hlt a').map f).flatten
  have hold := ((List.getElem_cons_eraseIdx_perm hlt).map f).flatten
  rw [List.map_cons, List.flatten_cons, hf] at hnew
  rw [List.map_cons, List.flatten_cons] at hold
  refine hnew.trans (List.Perm.trans ?_ (hold.append_right [b]))
  rw [List.append_assoc, List.append_assoc]
  exact List.perm_append_comm.append_left _

theorem PostingOrder.concat {log : List SendWqe} (h : v.PostingOrder log) (hq : v.physicalQps_[i]? = some q)
    {id : ℕ} (hid : wr.wr_id = v.nextPhysicalWrId_)
    (hqps : v'.physicalQps_ = v.physicalQps_.set i (q.postSend wr id))
    (hnext : v'.nextPhysicalWrId_ = v.nextPhysicalWrId_ + 1) :
    v'.PostingOrder (log ++ [⟨wr, id⟩]) where
  all := by
    have hset : (v.physicalQps_.set i (q.postSend wr id)).map (fun q => q.sq.posted) |>.flatten.Perm
        (v.dataSegments ++ [⟨wr, id⟩]) := map_set_perm hq rfl
    rw [dataSegments, hqps]
    exact (h.all.append_right _).trans hset.symm
  sorted := by
    rw [List.pairwise_append]
    refine ⟨h.sorted, List.pairwise_singleton _ _, ?_⟩
    intro x hx y hy
    rw [List.mem_singleton.mp hy]
    simp only
    rw [hid]
    exact h.used x hx
  used := by
    intro x hx
    rw [hnext]
    rcases List.mem_append.mp hx with hx | hx
    · exact Nat.lt_succ_of_lt (h.used x hx)
    · rw [List.mem_singleton.mp hx]
      simp only
      rw [hid]
      exact Nat.lt_succ_self _

theorem segment_posted {len : ℕ} (hop : Supported w.wr.opcode)
    (hoff : 0 ≤ w.offset) (hsg : wr.sg_list = some ⟨u64 (g.addr + w.offset), len, g.lkey⟩)
    (haddr : wr.remote_addr = remoteAddr w) :
    segment ⟨wr, w.wr.wr_id⟩ = segmentAt w.wr g (w.offset.toNat, len) := by
  have hcast : ((w.offset.toNat : ℕ) : ℤ) = w.offset := Int.toNat_of_nonneg hoff
  simp only [segment, segmentAt, hsg, haddr, hcast, remoteAddr]
  rcases hop with h | h | h | h <;> simp [h]

theorem weight_advanced (hw : 0 < w.remainingMsgCnt) (rest : List VirtualSendWr) (length : ℕ) :
    weight (advanced w rest length) < weight (w :: rest) := by
  rw [advanced]
  split
  · simp only [weight, List.map_cons, List.sum_cons]
    omega
  · simp only [weight, List.map_cons, List.sum_cons]
    omega

theorem Splitting.segment (hm : 1 ≤ m) (h : Splitting m reqs v) (hpend : v.pendingSendVirtualWrQue_ = w :: rest)
    (hi : i < v.physicalQps_.length) :
    ∃ v', v.postSegment i w rest = .ok v' ∧ Splitting m reqs v' ∧
      v'.physicalQps_.length = v.physicalQps_.length ∧
      weight v'.pendingSendVirtualWrQue_ < weight v.pendingSendVirtualWrQue_ := by
  rcases h with ⟨rfl, hwired, hnext, hops, done, parts, front, hreqs, hwhole, hprogress, horder⟩
  rw [hpend] at hreqs hprogress
  rcases hprogress with ⟨hpartly, hrest⟩
  have hop := hops w (by simp [hpend])
  have hleft := hpartly.left_pos
  rcases v.updatePhysicalSendWr_spec (hpartly.cuttable hop) with ⟨wr₀, sg₀, n₀, t₀, hupd, hsg₀, _⟩
  have hok : ∃ v', v.postSegment i w rest = .ok v' := by
    have hmin : w.remainingMsgCnt ≠ INT_MIN := by
      simp only [INT_MIN]
      omega
    simp only [postSegment, hupd, bind, Except.bind, List.getElem?_eq_getElem hi, hsg₀, hmin, if_false]
    exact ⟨_, rfl⟩
  rcases hok with ⟨v', hpost⟩
  rcases postSegment_of_ok hpost with ⟨q, wr, g, tracker, ns, hq, hg, hid, haddr, hsg, _, _, rfl⟩
  have hoff : 0 ≤ w.offset := by
    rcases hpartly with ⟨_, e, _, _, _, hoff, _⟩
    omega
  have hqp : v.qp? (some i) = some q := hq
  refine ⟨_, hpost, ⟨rfl, ?_, ?_, ?_, ?_⟩, ?_, ?_⟩
  · exact hwired.of_eq rfl (map_setQp _ hqp rfl)
  · simp only [List.length_set]
    exact hnext
  · intro x hx
    simp only [advanced] at hx
    split at hx
    · exact hops x (by simp [hpend, hx])
    · rcases List.mem_cons.mp hx with rfl | hx
      · exact hop
      · exact hops x (by simp [hpend, hx])
  · have horder' : PostingOrder { v with
        physicalQps_ := v.physicalQps_.set i (q.postSend wr w.wr.wr_id)
        nextPhysicalWrId_ := v.nextPhysicalWrId_ + 1
        dqplbSeqTracker := tracker
        pendingSendVirtualWrQue_ := advanced w rest
          (u32 (min (i32 (u32 (g.length - w.offset))) v.maxMsgSize_))
        pendingSendNotifyVirtualWrQue_ := ns } (parts.flatten ++ front ++ [⟨wr, w.wr.wr_id⟩]) :=
      horder.concat hq hid rfl rfl
    rcases hpartly.next hm rest hg (segment_posted hop hoff hsg haddr) with
      ⟨hdone, hadv⟩ | ⟨w', hadv, hwr, hpartly'⟩
    · refine ⟨done ++ [w.wr], parts ++ [front ++ [⟨wr, w.wr.wr_id⟩]], [], ?_, ?_, ?_, ?_⟩
      · simp only [hadv, hreqs, List.map_cons, List.append_assoc, List.singleton_append]
      · exact List.rel_append hwhole (List.Forall₂.cons hdone List.Forall₂.nil)
      · simp only [hadv]
        cases rest with
        | nil => rfl
        | cons x xs =>
          exact ⟨hrest x List.mem_cons_self, fun y hy => hrest y (List.mem_cons_of_mem _ hy)⟩
      · rw [List.flatten_append, List.flatten_singleton, List.append_nil, ← List.append_assoc]
        exact horder'
    · refine ⟨done, parts, front ++ [⟨wr, w.wr.wr_id⟩], ?_, hwhole, ?_, ?_⟩
      · simp only [hadv, hreqs, List.map_cons, hwr]
      · simp only [hadv]
        exact ⟨hpartly', hrest⟩
      · rw [← List.append_assoc]
        exact horder'
  · simp only [List.length_set]
  · simp only [hpend]
    exact weight_advanced hleft rest _

/-! ### The loop -/

theorem Splitting.next_index (h : Splitting m reqs v) {n : ℕ} (hn : n < v.physicalQps_.length) :
    Splitting m reqs { v with nextSendPhysicalQpIdx_ := n } where
  __ := h
  wired := h.wired.of_eq rfl rfl
  next := hn
  log := by
    rcases h.log with ⟨done, parts, front, hreqs, hwhole, hprogress, horder⟩
    exact ⟨done, parts, front, hreqs, hwhole, hprogress, horder.all, horder.sorted, horder.used⟩

theorem Splitting.cuttable (h : Splitting m reqs v) : ∀ w ∈ v.pendingSendVirtualWrQue_, Cuttable w := by
  rcases h.log with ⟨done, parts, front, _, _, hprogress, _⟩
  intro w hw
  have hop := h.opcode w hw
  cases hpend : v.pendingSendVirtualWrQue_ with
  | nil =>
    rw [hpend] at hw
    cases hw
  | cons x rest =>
    rw [hpend] at hprogress hw
    rcases List.mem_cons.mp hw with rfl | hw
    · exact hprogress.1.cuttable hop
    · exact (hprogress.2 w hw).cuttable hop

theorem Splitting.round (hm : 1 ≤ m) (h : Splitting m reqs v)
    (hk : ∀ i, k = some i → i < v.physicalQps_.length) :
    ∃ c v' k', mapPendingSendRound (v, k) = .ok (c, v', k') ∧ Splitting m reqs v' ∧
      (∀ i, k' = some i → i < v'.physicalQps_.length) ∧
      (c = true → weight v'.pendingSendVirtualWrQue_ < weight v.pendingSendVirtualWrQue_) := by
  cases hpend : v.pendingSendVirtualWrQue_ with
  | nil =>
    refine ⟨false, v, k, ?_, h, hk, by simp⟩
    simp only [mapPendingSendRound, hpend]
  | cons w rest =>
    have hw := h.cuttable w (by simp [hpend])
    rcases selectSendQp_spec h.next hw.opcode hk with ⟨o, n, k', hselect, hn, hsome, _, hk', _⟩
    have hindex := h.next_index hn
    cases o with
    | none =>
      refine ⟨false, _, k', ?_, hindex, fun i hi => hk i (hk' i hi), by simp⟩
      rw [mapPendingSendRound_cons hpend, hselect]
      rfl
    | some i =>
      rcases hindex.segment hm hpend (hsome i rfl) with ⟨v', hpost, hsplit, hlen, hweight⟩
      refine ⟨true, v', k', ?_, hsplit, ?_, fun _ => ?_⟩
      · rw [mapPendingSendRound_cons hpend, hselect]
        simp only [bind, Except.bind, hpost]
      · intro j hj
        rw [hlen]
        exact hk j (hk' j hj)
      · rw [← hpend]
        exact hweight

theorem Splitting.map (hm : 1 ≤ m) (h : Splitting m reqs v)
    (hk : ∀ i, k = some i → i < v.physicalQps_.length) :
    ∃ v', v.mapPendingSendQueToPhysicalQp k = .ok v' ∧ Splitting m reqs v' := by
  have hround : ∀ s : IbvVirtualQp × Option ℕ,
      (Splitting m reqs s.1 ∧ ∀ i, s.2 = some i → i < s.1.physicalQps_.length) →
      ∃ c s', mapPendingSendRound s = .ok (c, s') ∧
        (c = true → (Splitting m reqs s'.1 ∧ ∀ i, s'.2 = some i → i < s'.1.physicalQps_.length) ∧
          weight s'.1.pendingSendVirtualWrQue_ < weight s.1.pendingSendVirtualWrQue_) ∧
        (c = false → Splitting m reqs s'.1) := by
    rintro ⟨u, l⟩ ⟨hu, hl⟩
    rcases hu.round hm hl with ⟨c, u', l', hround, hu', hl', hgo⟩
    exact ⟨c, (u', l'), hround, fun hc => ⟨⟨hu', hl'⟩, hgo hc⟩, fun _ => hu'⟩
  have hloop : ∃ s, loop .diverged mapPendingSendRound (sendRounds v.pendingSendVirtualWrQue_)
      (v, k) = .ok s ∧ Splitting m reqs s.1 :=
    loop_invariant _ _ (fun s => weight s.1.pendingSendVirtualWrQue_) hround ⟨h, hk⟩
      (weight_lt_sendRounds _)
  rcases hloop with ⟨s, hs, hsplit⟩
  refine ⟨s.1, ?_, hsplit⟩
  rw [mapPendingSendQueToPhysicalQp, hs]
  rfl

/-! ### What does not concern the segments -/

/-- Everything that the segments of sends are made from is the same. -/
structure SameData (v v' : IbvVirtualQp) : Prop where
  size : v'.maxMsgSize_ = v.maxMsgSize_
  route : v'.qpNumToIdx_ = v.qpNumToIdx_
  nums : v'.qps.map IbvQp.qp_num = v.qps.map IbvQp.qp_num
  next : v'.nextSendPhysicalQpIdx_ = v.nextSendPhysicalQpIdx_
  pending : v'.pendingSendVirtualWrQue_ = v.pendingSendVirtualWrQue_
  posted : v'.physicalQps_.map (fun q => q.sq.posted) = v.physicalQps_.map fun q => q.sq.posted
  wrId : v.nextPhysicalWrId_ ≤ v'.nextPhysicalWrId_

theorem SameData.refl (v : IbvVirtualQp) : SameData v v := ⟨rfl, rfl, rfl, rfl, rfl, rfl, le_rfl⟩

theorem SameData.trans (h : SameData v v') (h' : SameData v' v'') : SameData v v'' where
  size := h'.size.trans h.size
  route := h'.route.trans h.route
  nums := h'.nums.trans h.nums
  next := h'.next.trans h.next
  pending := h'.pending.trans h.pending
  posted := h'.posted.trans h.posted
  wrId := h.wrId.trans h'.wrId

theorem Splitting.of_same (h : Splitting m reqs v) (hsame : SameData v v') : Splitting m reqs v' where
  size := hsame.size.trans h.size
  wired := h.wired.of_eq hsame.route hsame.nums
  next := by
    have hlen := congrArg List.length hsame.posted
    rw [List.length_map, List.length_map] at hlen
    rw [hsame.next, hlen]
    exact h.next
  opcode := by
    rw [hsame.pending]
    exact h.opcode
  log := by
    rcases h.log with ⟨done, parts, front, hreqs, hwhole, hprogress, horder⟩
    rw [hsame.pending]
    refine ⟨done, parts, front, hreqs, hwhole, hprogress, ?_, horder.sorted, ?_⟩
    · rw [dataSegments, hsame.posted]
      exact horder.all
    · intro x hx
      exact Nat.lt_of_lt_of_le (horder.used x hx) hsame.wrId

theorem sameData_setQp (hq : v.qp? k = some q) (hnum : q'.qp_num = q.qp_num)
    (hposted : q'.sq.posted = q.sq.posted) : SameData v (v.setQp k q') := by
  have hnums := map_setQp IbvQp.qp_num hq hnum
  have hall := map_setQp (fun q => q.sq.posted) hq hposted
  rw [qps, qps, List.map_cons, List.map_cons, List.cons.injEq] at hall
  cases k with
  | none => exact ⟨rfl, rfl, hnums, rfl, rfl, hall.2, le_rfl⟩
  | some i => exact ⟨rfl, rfl, hnums, rfl, rfl, hall.2, le_rfl⟩

theorem sameData_postRecv (hq : v.qp? k = some q) (wr : IbvRecvWr) (id : ℕ) (ws : List VirtualRecvWr) :
    SameData v { v.setQp k (q.postRecv wr id) with
      nextPhysicalWrId_ := v.nextPhysicalWrId_ + 1, pendingRecvVirtualWrQue_ := ws } := by
  have hset : SameData v (v.setQp k (q.postRecv wr id)) := sameData_setQp hq rfl rfl
  exact ⟨hset.size, hset.route, hset.nums, hset.next, hset.pending, hset.posted, Nat.le_succ _⟩

theorem sameData_postRecvNotifyImm (h : v.postRecvNotifyImm k = .ok v') : SameData v v' := by
  rw [postRecvNotifyImm] at h
  split at h
  · cases h
  · rename_i q hq
    split at h
    · split at h
      · cases h
      · cases h
        exact sameData_postRecv hq _ _ _
    · cases h
      have hpost := sameData_postRecv hq (notifyRecvWr v.nextPhysicalWrId_) noVirtualWrId []
      exact ⟨hpost.size, hpost.route, hpost.nums, hpost.next, hpost.pending, hpost.posted,
        hpost.wrId⟩

theorem sameData_postRecvSegment {w : VirtualRecvWr} {rest : List VirtualRecvWr}
    (h : v.postRecvSegment i w rest = .ok v') : SameData v v' := by
  rw [postRecvSegment] at h
  split at h
  · rename_i q sg hq _
    dsimp only at h
    split at h
    · cases h
    · cases h
      exact sameData_postRecv (show v.qp? (some i) = some q from hq) _ _ _
  · cases h
  · cases h

theorem sameData_recvRound {b : Bool} {k' : Option ℕ}
    (h : mapPendingRecvRound (v, k) = .ok (b, v', k')) : SameData v v' := by
  rw [mapPendingRecvRound] at h
  split at h
  · cases h
    exact SameData.refl v
  · rename_i w rest _
    split at h
    · cases hpost : v.postRecvNotifyImm none with
      | error e =>
        simp only [hpost, bind, Except.bind] at h
        cases h
      | ok u =>
        simp only [hpost, bind, Except.bind] at h
        cases h
        exact sameData_postRecvNotifyImm hpost
    · cases hselect : v.selectRecvQp k with
      | error e =>
        simp only [hselect, bind, Except.bind] at h
        cases h
      | ok o =>
        simp only [hselect, bind, Except.bind] at h
        cases o with
        | none =>
          cases h
          exact SameData.refl v
        | some i =>
          cases hpost : v.postRecvSegment i w rest with
          | error e =>
            simp only [hpost] at h
            cases h
          | ok u =>
            simp only [hpost] at h
            cases h
            exact sameData_postRecvSegment hpost

theorem sameData_mapRecv (h : v.mapPendingRecvQueToPhysicalQp k = .ok v') : SameData v v' := by
  rw [mapPendingRecvQueToPhysicalQp] at h
  cases hloop : loop .diverged mapPendingRecvRound (recvRounds v.pendingRecvVirtualWrQue_)
      (v, k) with
  | error e =>
    rw [hloop] at h
    cases h
  | ok s =>
    rw [hloop] at h
    cases h
    apply loop_of_ok (fun s => SameData v s.1) ?_ (SameData.refl v) hloop
    rintro ⟨u, l⟩ b ⟨u', l'⟩ hround hsame
    exact hsame.trans (sameData_recvRound hround)

theorem sameData_prepostRecv (v : IbvVirtualQp) (j : ℕ) : SameData v (v.prepostRecv j) := by
  have hsame : ∀ {β : Type} (f : IbvQp → β), (∀ q wr id, f (q.postRecv wr id) = f q) →
      (v.prepostRecv j).physicalQps_.map f = v.physicalQps_.map f := by
    intro β f hf
    apply List.ext_getElem?
    intro n
    simp only [prepostRecv, List.getElem?_map, List.getElem?_modify]
    cases v.physicalQps_[n]? with
    | none => rfl
    | some q =>
      simp only [Option.map_some]
      split
      · simp only [Option.map_eq_map, Option.map_some, hf]
      · rfl
  refine ⟨rfl, rfl, ?_, rfl, rfl, hsame _ fun _ _ _ => rfl, Nat.le_succ _⟩
  rw [qps, qps, List.map_cons, List.map_cons, hsame _ fun _ _ _ => rfl]
  rfl

theorem sameData_foldl {f : IbvVirtualQp → α → IbvVirtualQp}
    (hf : ∀ u a, SameData u (f u a)) (as : List α) (v : IbvVirtualQp) :
    SameData v (as.foldl f v) := by
  induction as generalizing v with
  | nil => exact SameData.refl v
  | cons a as ih => exact (hf v a).trans (ih (f v a))

theorem sameData_initialize (v : IbvVirtualQp) : SameData v v.initializeDqplbReceiver := by
  have hrounds := sameData_foldl (fun u _ => sameData_foldl sameData_prepostRecv
    (List.range u.physicalQps_.length) u) (List.range v.maxMsgCntPerQp_.toNat) v
  exact ⟨hrounds.size, hrounds.route, hrounds.nums, hrounds.next, hrounds.pending, hrounds.posted,
    hrounds.wrId⟩

theorem sameData_after {r : Except Fault (α × IbvVirtualQp)}
    (hok : ∀ a u, r = .ok (a, u) → SameData v u) (h : v.after r = .ok v') : SameData v v' := by
  rcases after_of_ok h with rfl | ⟨a, ha⟩
  · exact SameData.refl _
  · exact hok a v' ha

theorem sameData_postRecvCall {wr : IbvRecvWr} {request : VirtualCqRequest}
    (h : v.postRecv wr = .ok (request, v')) : SameData v v' := by
  rcases postRecv_of_ok h with ⟨x, ⟨_, hmap⟩ | ⟨_, rfl⟩⟩
  · have hadd : SameData v { v with
        pendingRecvVirtualWrQue_ := v.pendingRecvVirtualWrQue_ ++ [x] } :=
      ⟨rfl, rfl, rfl, rfl, rfl, rfl, le_rfl⟩
    exact hadd.trans (sameData_mapRecv hmap)
  · split
    · exact ⟨rfl, rfl, rfl, rfl, rfl, rfl, le_rfl⟩
    · have hinit := sameData_initialize { v with
        pendingRecvVirtualWrQue_ := v.pendingRecvVirtualWrQue_ ++ [x] }
      exact ⟨hinit.size, hinit.route, hinit.nums, hinit.next, hinit.pending, hinit.posted,
        hinit.wrId⟩

variable {request : VirtualQpRequest}

theorem sameData_processRecv
    (htype : request.type = .RECV) (h : v.processRequest request = .ok (response, v')) :
    SameData v v' := by
  rcases processRecv_of_ok htype h with
    ⟨k, q, st, sts, hmatch, ⟨_, ⟨rfl, rfl⟩ | ⟨i, rfl, hmap⟩⟩ | ⟨_, u, tracker, hpost, rfl⟩⟩
  · exact sameData_setQp hmatch.qp rfl rfl
  · have hpop : SameData v (v.setQp (some i) { q with physicalRecvWrStatus_ := sts }) :=
      sameData_setQp hmatch.qp rfl rfl
    exact hpop.trans (sameData_mapRecv hmap)
  · have hpop : SameData v (v.setQp k { q with physicalRecvWrStatus_ := sts }) :=
      sameData_setQp hmatch.qp rfl rfl
    have hsame := hpop.trans (sameData_postRecvNotifyImm hpost)
    exact ⟨hsame.size, hsame.route, hsame.nums, hsame.next, hsame.pending, hsame.posted, hsame.wrId⟩

theorem sameData_processSendNotify
    (htype : request.type = .SEND_NOTIFY) (h : v.processRequest request = .ok (response, v')) :
    SameData v v' := by
  rcases processSendNotify_of_ok htype h with rfl | hpost
  · exact SameData.refl _
  · rw [postSendNotifyImm] at hpost
    split at hpost
    · cases hpost
    · cases hpost
      exact ⟨rfl, rfl, rfl, rfl, rfl, rfl, Nat.le_succ _⟩

/-! ### Posting -/

/-- A supported request of 1 to `2 ^ 31 - 1` bytes. -/
structure InRange (wr : IbvSendWr) : Prop where
  num_sge : wr.num_sge = 1
  sg : ∃ g ∈ wr.sg_list, 1 ≤ g.length ∧ g.length < 2 ^ 31
  opcode : Supported wr.opcode

/-- The largest request, cut into single bytes, with its notification: its number of parts is not an
`int`. -/
def Overflows (v : IbvVirtualQp) (wr : IbvSendWr) : Prop :=
  wr.opcode = .IBV_WR_RDMA_WRITE_WITH_IMM ∧ v.loadBalancingScheme_ = .SPRAY ∧
    v.maxMsgSize_ = 1 ∧ ∃ g ∈ wr.sg_list, g.length = 2 ^ 31 - 1

instance (o : IbvWrOpcode) : Decidable (Supported o) := inferInstanceAs (Decidable (_ ∨ _))

instance (wr : IbvSendWr) : Decidable (InRange wr) :=
  decidable_of_iff (wr.num_sge = 1 ∧ (∃ g ∈ wr.sg_list, 1 ≤ g.length ∧ g.length < 2 ^ 31) ∧
    Supported wr.opcode) ⟨fun h => ⟨h.1, h.2.1, h.2.2⟩, fun h => ⟨h.1, h.2, h.3⟩⟩

instance (v : IbvVirtualQp) (wr : IbvSendWr) : Decidable (v.Overflows wr) :=
  inferInstanceAs (Decidable (_ ∧ _))

theorem segments_le (hm : 1 ≤ m) (hpos : 1 ≤ length) : segments m length ≤ length := by
  rcases Int.eq_ofNat_of_zero_le (by omega : 0 ≤ m) with ⟨n, rfl⟩
  have hn : 1 ≤ n := by omega
  have hmul : length + n ≤ length * n + 1 := by
    rcases Nat.exists_eq_add_of_le hpos with ⟨l, rfl⟩
    rcases Nat.exists_eq_add_of_le hn with ⟨d, rfl⟩
    rw [Nat.add_mul, Nat.one_mul, Nat.mul_add, Nat.mul_one]
    omega
  rw [segments, Int.toNat_natCast]
  apply Nat.div_le_of_le_mul
  rw [Nat.mul_comm]
  omega

theorem segments_lt (hm : 2 ≤ m) (hpos : 1 ≤ length) (hlen : length < 2 ^ 31) :
    segments m length < 2 ^ 31 - 1 := by
  rcases Int.eq_ofNat_of_zero_le (by omega : 0 ≤ m) with ⟨n, rfl⟩
  rw [segments, Int.toNat_natCast, Nat.div_lt_iff_lt_mul (by omega)]
  omega

theorem segmentable (hm : 1 ≤ m) (hmax : m < 2 ^ 31)
    (hpos : 1 ≤ g.length) (hlen : g.length < 2 ^ 31) : Segmentable m g.length := by
  have hle := segments_le hm hpos
  refine ⟨hpos, by omega, ?_⟩
  simp only [INT_MAX]
  omega

theorem partly_new (hm : 1 ≤ m) (hnum : wr.num_sge = 1)
    (hg : wr.sg_list = some g) (hpos : 1 ≤ g.length) (hlen : g.length < 2 ^ 31) (extra : Bool) :
    Partly m (VirtualSendWr.ofWr wr (segments m g.length + if extra then 1 else 0) extra) [] := by
  have hcopy : VirtualSendWr.ofWr wr (segments m g.length + if extra then 1 else 0) extra =
      ⟨wr, segments m g.length + if extra then 1 else 0,
        segments m g.length + if extra then 1 else 0, 0, extra⟩ := by
    simp [VirtualSendWr.ofWr, hg, hnum]
  rw [hcopy]
  exact ⟨g, 0, segments m g.length, hg, hlen, rfl, rfl, spans_ceil (by omega) hpos,
    ⟨[], rfl, List.Pairwise.nil, rfl⟩, Nat.zero_add _⟩

theorem InProgress.push {ws : List VirtualSendWr} (h : InProgress m part ws) (hw : Partly m w []) :
    InProgress m part (ws ++ [w]) := by
  cases ws with
  | nil =>
    rw [show part = [] from h]
    exact ⟨hw, fun x hx => nomatch hx⟩
  | cons x xs =>
    refine ⟨h.1, ?_⟩
    intro y hy
    rcases List.mem_append.mp hy with hy | hy
    · exact h.2 y hy
    · rw [List.mem_singleton.mp hy]
      exact hw

theorem Splitting.push (h : Splitting m reqs v) {x : VirtualSendWr} (hx : Partly m x [])
    (hop : Supported x.wr.opcode) : Splitting m (reqs ++ [x.wr]) { v with
      pendingSendVirtualWrQue_ := v.pendingSendVirtualWrQue_ ++ [x] } where
  __ := h
  wired := h.wired.of_eq rfl rfl
  opcode w hw := by
    rcases List.mem_append.mp hw with hw | hw
    · exact h.opcode w hw
    · rw [List.mem_singleton.mp hw]
      exact hop
  log := by
    rcases h.log with ⟨done, parts, front, hreqs, hwhole, hprogress, horder⟩
    refine ⟨done, parts, front, ?_, hwhole, hprogress.push hx, horder.all, horder.sorted,
      horder.used⟩
    rw [hreqs, List.map_append, List.append_assoc]
    rfl

theorem Splitting.postSend (hm : 1 ≤ m) (hmax : m < 2 ^ 31) (h : Splitting m reqs v)
    (hwr : InRange wr) (hover : ¬ v.Overflows wr) :
    ∃ request v', v.postSend wr = .ok (request, v') ∧ Splitting m (reqs ++ [wr]) v' := by
  rcases hwr.sg with ⟨g, hg, hpos, hlen⟩
  rw [Option.mem_def] at hg
  have hcount : segmentCount g.length v.maxMsgSize_ = .ok (segments m g.length : ℕ) := by
    rw [h.size]
    exact (segmentCount_spec hm (segmentable hm hmax hpos hlen)).1
  generalize hextra : decide (wr.opcode = .IBV_WR_RDMA_WRITE_WITH_IMM ∧
    v.loadBalancingScheme_ = .SPRAY) = extra
  have hfit : ¬ (extra = true ∧ ((segments m g.length : ℕ) : ℤ) = INT_MAX) := by
    rintro ⟨hone, hcount⟩
    rw [hone, decide_eq_true_iff] at hextra
    rw [INT_MAX] at hcount
    refine hover ⟨hextra.1, hextra.2, ?_, g, hg, ?_⟩
    · by_contra hne
      have hlt := segments_lt (m := m) (by have hsize := h.size; omega) hpos hlen
      omega
    · have hle := segments_le hm hpos
      omega
  have hcopy : (VirtualSendWr.ofWr wr (segments m g.length + if extra then 1 else 0) extra).wr = wr := by
    simp [VirtualSendWr.ofWr, hg, hwr.num_sge]
  have hpush := h.push (partly_new hm hwr.num_sge hg hpos hlen extra) (by
    rw [hcopy]
    exact hwr.opcode)
  rw [hcopy] at hpush
  rcases hpush.map hm (k := none) (by simp) with ⟨v', hmap, hsplit⟩
  exact ⟨_, v', postSend_of_map hwr.num_sge hwr.opcode hg hcount hextra hfit hmap, hsplit⟩

/-! ### Runs -/

theorem Splitting.process (hm : 1 ≤ m) (h : Splitting m reqs v)
    (htype : request.type = .SEND) (hidx : v.idxOfQpNum request.physicalQpNum = .ok k)
    (hq : v.qp? k = some q) : ∃ v', v.process request = .ok v' ∧ Splitting m reqs v' := by
  have hcall : v.processRequest request = v.processSend k q request := by
    simp only [processRequest, hidx, bind, Except.bind, hq, htype]
  rw [IbvVirtualQp.process, hcall, processSend]
  cases hst : q.physicalSendWrStatus_ with
  | nil => exact ⟨v, rfl, h⟩
  | cons st sts =>
    by_cases hid : st.physicalWrId = request.wrId
    · have hpop : Splitting m reqs (v.setQp k { q with physicalSendWrStatus_ := sts }) :=
        h.of_same (sameData_setQp hq rfl rfl)
      simp only [hid, ne_eq, not_true_eq_false, if_false]
      cases k with
      | none => exact ⟨_, rfl, hpop⟩
      | some i =>
        have hlt : i < (v.setQp (some i) { q with physicalSendWrStatus_ := sts }).physicalQps_.length := by
          simp only [setQp, List.length_set]
          exact (List.getElem?_eq_some_iff.mp hq).1
        have hk : ∀ j, some i = some j →
            j < (v.setQp (some i) { q with physicalSendWrStatus_ := sts }).physicalQps_.length := by
          rintro j ⟨⟩
          exact hlt
        rcases hpop.map hm hk with ⟨v', hmap, hsplit⟩
        exact ⟨v', by simp only [hmap, bind, Except.bind, after], hsplit⟩
    · simp only [hid, ne_eq, not_false_eq_true, if_true]
      exact ⟨v, rfl, h⟩

theorem Splitting.sendCompletion (hm : 1 ≤ m) (h : Splitting m reqs v) (k : Option ℕ) :
    ∃ v', v.step (.sendCompletion k) = .ok v' ∧ Splitting m reqs v' := by
  cases hnext : v.nextSend k with
  | none => exact ⟨v, by simp only [IbvVirtualQp.step, hnext, Option.elim], h⟩
  | some r =>
    rcases r with ⟨request, u⟩
    have hnext' := hnext
    simp only [nextSend, Option.bind_eq_bind, Option.bind_eq_some_iff] at hnext'
    rcases hnext' with ⟨q, hq, r, hr, heq⟩
    rw [IbvQp.completeSend, Option.map_eq_some_iff] at hr
    rcases hr with ⟨x, hx, rfl⟩
    cases heq
    have hposted : x.2.posted = q.sq.posted := by
      rw [WorkQueue.completeNext] at hx
      split at hx
      · cases hx
        rfl
      · cases hx
    have hsplit : Splitting m reqs (v.setQp k { q with sq := x.2 }) :=
      h.of_same (sameData_setQp hq rfl hposted)
    have hget : (v.setQp k { q with sq := x.2 }).qp? k = some { q with sq := x.2 } := by
      rw [qp?_setQp hq, if_pos rfl]
    have hidx := hsplit.wired.index k { q with sq := x.2 } hget
    have hprocess : ∃ v', (v.setQp k { q with sq := x.2 }).process
        ⟨.SEND, x.1.wr.wr_id, q.qp_num, 0⟩ = .ok v' ∧ Splitting m reqs v' :=
      hsplit.process hm rfl hidx hget
    rcases hprocess with ⟨v', hv', hsplit'⟩
    refine ⟨v', ?_, hsplit'⟩
    simp only [IbvVirtualQp.step, hnext, Option.elim]
    exact hv'

/-- The requests posted by the operations. -/
def Op.posted : Op → Option IbvSendWr
  | .postSend sendWr => some sendWr
  | _ => none

def requests (ops : List Op) : List IbvSendWr := ops.filterMap Op.posted

theorem requests_concat (past : List Op) (op : Op) :
    requests (past ++ [op]) = requests past ++ op.posted.toList := by
  rw [requests, List.filterMap_append, requests]
  cases op <;> rfl

/-- Requests in range, all completions of sends, and any other operations that go through. -/
def Sends (_ : List Op) (v : IbvVirtualQp) : Op → Prop
  | .postSend sendWr => InRange sendWr
  | .sendCompletion _ => True
  | op => (v.step op).isOk

instance (past : List Op) (v : IbvVirtualQp) (op : Op) : Decidable (Sends past v op) :=
  match op with
  | .postSend sendWr => inferInstanceAs (Decidable (InRange sendWr))
  | .sendCompletion _ => isTrue trivial
  | .postRecv _ | .recvCompletion _ _ | .sendNotify _ _ => inferInstanceAs (Decidable (_ = true))

/-- No request overflows the count of its parts. -/
def Counted (past : List Op) (v : IbvVirtualQp) (op : Op) : Prop :=
  Sends past v op ∧ ∀ wr ∈ op.posted, ¬ v.Overflows wr

instance (past : List Op) (v : IbvVirtualQp) (op : Op) : Decidable (Counted past v op) :=
  inferInstanceAs (Decidable (_ ∧ _))

theorem exists_of_isOk {r : Except Fault IbvVirtualQp} (h : r.isOk) : ∃ v', r = .ok v' := by
  cases r with
  | error e => cases h
  | ok v' => exact ⟨v', rfl⟩

theorem Splitting.step (hm : 1 ≤ m) (hmax : m < 2 ^ 31) {past : List Op} {op : Op}
    (h : Splitting m (requests past) v) (hop : Counted past v op) :
    ∃ v', v.step op = .ok v' ∧ Splitting m (requests (past ++ [op])) v' := by
  rw [requests_concat]
  cases op with
  | postSend sendWr =>
    rcases h.postSend hm hmax hop.1 (hop.2 sendWr rfl) with ⟨request, v', hpost, hsplit⟩
    exact ⟨v', by simp only [IbvVirtualQp.step, hpost, after], hsplit⟩
  | sendCompletion qpIdx =>
    rcases h.sendCompletion hm qpIdx with ⟨v', hstep, hsplit⟩
    exact ⟨v', hstep, by simpa only [Op.posted, Option.toList_none, List.append_nil] using hsplit⟩
  | postRecv recvWr =>
    rcases exists_of_isOk hop.1 with ⟨v', hstep⟩
    refine ⟨v', hstep, ?_⟩
    have hsame := sameData_after (fun _ _ hu => sameData_postRecvCall hu) hstep
    simpa only [Op.posted, Option.toList_none, List.append_nil] using h.of_same hsame
  | recvCompletion qpIdx immData =>
    rcases exists_of_isOk hop.1 with ⟨v', hstep⟩
    refine ⟨v', hstep, ?_⟩
    have hsame : SameData v v' := by
      simp only [IbvVirtualQp.step] at hstep
      cases hnext : v.nextRecv qpIdx immData with
      | none =>
        rw [hnext] at hstep
        cases hstep
        exact SameData.refl v
      | some r =>
        rw [hnext] at hstep
        simp only [nextRecv, Option.bind_eq_bind, Option.bind_eq_some_iff] at hnext
        rcases hnext with ⟨q, hq, x, hx, heq⟩
        rw [IbvQp.completeRecv, Option.map_eq_some_iff] at hx
        rcases hx with ⟨y, _, rfl⟩
        cases heq
        have hpop : SameData v (v.setQp qpIdx { q with rq := y.2 }) := sameData_setQp hq rfl rfl
        exact hpop.trans (sameData_after (fun _ _ hu => sameData_processRecv rfl hu) hstep)
    simpa only [Op.posted, Option.toList_none, List.append_nil] using h.of_same hsame
  | sendNotify wrId physicalQpNum =>
    rcases exists_of_isOk hop.1 with ⟨v', hstep⟩
    refine ⟨v', hstep, ?_⟩
    have hsame := sameData_after (fun _ _ hu => sameData_processSendNotify rfl hu) hstep
    simpa only [Op.posted, Option.toList_none, List.append_nil] using h.of_same hsame

theorem splitting_create {qpNums : List ℕ} {notifyQpNum : ℕ} (hne : qpNums ≠ [])
    (hnodup : (notifyQpNum :: qpNums).Nodup) (maxMsgCntPerQp maxMsgSize : ℤ)
    (scheme : LoadBalancingScheme) :
    Splitting maxMsgSize [] (create qpNums notifyQpNum maxMsgCntPerQp maxMsgSize scheme) where
  size := rfl
  wired := wired_create hne hnodup maxMsgCntPerQp maxMsgSize scheme
  next := by
    simp only [create, List.length_map]
    exact List.length_pos_iff.mpr hne
  opcode _ h := nomatch h
  log := by
    refine ⟨[], [], [], rfl, List.Forall₂.nil, rfl, ?_, List.Pairwise.nil, by simp⟩
    have hnil : (create qpNums notifyQpNum maxMsgCntPerQp maxMsgSize scheme).dataSegments = [] := by
      rw [dataSegments, List.flatten_eq_nil_iff]
      intro l hl
      rcases List.mem_map.mp hl with ⟨q, hq, rfl⟩
      rcases List.mem_map.mp hq with ⟨n, _, rfl⟩
      rfl
    rw [hnil]
    exact List.Perm.refl _

theorem partitioned_of_counted {qpNums : List ℕ} {notifyQpNum : ℕ} {maxMsgCntPerQp maxMsgSize : ℤ}
    {scheme : LoadBalancingScheme} {ops : List Op} (hne : qpNums ≠ [])
    (hnodup : (notifyQpNum :: qpNums).Nodup) (hm : 1 ≤ maxMsgSize) (hmax : maxMsgSize < 2 ^ 31)
    (hops : Admissible step Counted [] (create qpNums notifyQpNum maxMsgCntPerQp maxMsgSize scheme)
      ops) :
    ∃ v, run step (create qpNums notifyQpNum maxMsgCntPerQp maxMsgSize scheme) ops = .ok v ∧
      v.Partitioned maxMsgSize (requests ops) := by
  rcases run_invariant (fun past u => Splitting maxMsgSize (requests past) u)
    (fun past u op hu hop => hu.step hm hmax hop) ops
    (splitting_create hne hnodup maxMsgCntPerQp maxMsgSize scheme) hops with ⟨v, hrun, hsplit⟩
  exact ⟨v, hrun, hsplit.partitioned⟩

/-- A write of 250 bytes on two QPs that take one message of 100 bytes at a time: the last segment
is posted when the first has completed. -/
theorem partitioned_of_counted_write : ∃ v, run step (create [10, 11] 12 1 100 .SPRAY)
    [.postSend ⟨1, some ⟨0, 250, 0⟩, 1, .IBV_WR_RDMA_WRITE_WITH_IMM, IBV_SEND_SIGNALED, 0, 0, 0⟩,
      .sendCompletion (some 0)] = .ok v ∧ v.Partitioned 100
    [⟨1, some ⟨0, 250, 0⟩, 1, .IBV_WR_RDMA_WRITE_WITH_IMM, IBV_SEND_SIGNALED, 0, 0, 0⟩] :=
  partitioned_of_counted (by decide) (by decide) (by decide) (by decide) (by decide)

/-- The largest request with a notification in SPRAY mode, cut into single bytes. -/
theorem not_partitioned_overflow :
    ¬ ∀ (qpNums : List ℕ) (notifyQpNum : ℕ) (maxMsgCntPerQp maxMsgSize : ℤ)
      (scheme : LoadBalancingScheme) (ops : List Op), qpNums ≠ [] →
      (notifyQpNum :: qpNums).Nodup → 1 ≤ maxMsgSize → maxMsgSize < 2 ^ 31 →
      Admissible step Sends [] (create qpNums notifyQpNum maxMsgCntPerQp maxMsgSize scheme) ops →
      ∃ v, run step (create qpNums notifyQpNum maxMsgCntPerQp maxMsgSize scheme) ops = .ok v ∧
        v.Partitioned maxMsgSize (requests ops) := by
  intro h
  rcases h [10] 11 4 1 .SPRAY [.postSend ⟨1, some ⟨0, 2 ^ 31 - 1, 0⟩, 1,
    .IBV_WR_RDMA_WRITE_WITH_IMM, IBV_SEND_SIGNALED, 0, 0, 0⟩] (by decide) (by decide) (by decide)
    (by decide) (by decide) with ⟨v, hrun, _⟩
  cases hrun

end IbvVirtualQp
end TorchComms.Ibverbx
