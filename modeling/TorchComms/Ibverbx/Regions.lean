import TorchComms.Foundation.Cutting
import TorchComms.Ibverbx.RecvSide

/-! # The regions of segments

A SEND and a buffer are cut in the same way, and all their segments are posted on data QP 0, in the
order in which the work requests were posted.
-/
namespace TorchComms.Ibverbx

open Foundation

/-- The bytes of a scatter-gather list, by address and length. -/
def region (sg : Option IbvSge) : ℕ × ℕ := (sg.map fun sg => (sg.addr, sg.length)).getD (0, 0)

def place (addr : ℕ) (p : ℕ × ℕ) : ℕ × ℕ := (u64 (addr + p.1), p.2)

/-- The regions of all segments of a message or a buffer. -/
def regions (maxMsgSize : ℤ) (sg : IbvSge) : List (ℕ × ℕ) :=
  (pieces maxMsgSize.toNat sg.length (IbvVirtualQp.segments maxMsgSize sg.length) 0).map
    (place sg.addr)

/-- The regions of the segments that have not been posted. -/
def leftRegions (maxMsgSize : ℤ) (sg : Option IbvSge) (remainingMsgCnt offset : ℤ) : List (ℕ × ℕ) :=
  sg.elim [] fun sg =>
    (pieces maxMsgSize.toNat sg.length remainingMsgCnt.toNat offset.toNat).map (place sg.addr)

/-- What is left from the offset on fills the segments that are left. -/
def InCut (maxMsgSize : ℤ) (sg : Option IbvSge) (remainingMsgCnt offset : ℤ) : Prop :=
  ∃ (g : IbvSge) (n o : ℕ), sg = some g ∧ g.length < 2 ^ 31 ∧ remainingMsgCnt = n ∧ offset = o ∧
    Spans maxMsgSize.toNat g.length n o

section Cut

variable {maxMsgSize r o : ℤ} {sg : Option IbvSge} {g : IbvSge}

theorem inCut_start (hmax : 1 ≤ maxMsgSize) (hpos : 1 ≤ g.length) (hlen : g.length < 2 ^ 31) :
    InCut maxMsgSize (some g) (IbvVirtualQp.segments maxMsgSize g.length : ℕ) 0 ∧
      leftRegions maxMsgSize (some g) (IbvVirtualQp.segments maxMsgSize g.length : ℕ) 0 =
        regions maxMsgSize g := by
  have hm : 1 ≤ maxMsgSize.toNat := by omega
  exact ⟨⟨g, _, 0, rfl, hlen, rfl, rfl, spans_ceil hm hpos⟩, rfl⟩

theorem InCut.next (h : InCut maxMsgSize sg r o) (hmax : 1 ≤ maxMsgSize) :
    ∃ (g : IbvSge) (len : ℕ), sg = some g ∧ len < 2 ^ 31 ∧
      min (i32 (u32 (g.length - o))) maxMsgSize = len ∧ i32 (u32 (o + len)) = o + len ∧
      leftRegions maxMsgSize sg r o =
        (u64 (g.addr + o), len) :: leftRegions maxMsgSize sg (r - 1) (o + len) ∧
      (r - 1 ≠ 0 → InCut maxMsgSize sg (r - 1) (o + len)) := by
  rcases h with ⟨g, n, o, rfl, hlen, rfl, rfl, hspans⟩
  rcases Int.eq_ofNat_of_zero_le (by omega : 0 ≤ maxMsgSize) with ⟨m, rfl⟩
  rw [Int.toNat_natCast] at hspans
  have hlt := hspans.lt
  have hrest : i32 (u32 ((g.length : ℤ) - o)) = (g.length - o : ℕ) := by
    rw [show (g.length : ℤ) - o = (g.length - o : ℕ) by omega, IbvVirtualQp.u32_of_lt (by omega),
      IbvVirtualQp.i32_of_lt (by omega)]
  have hsum : i32 (u32 ((o : ℤ) + (min (g.length - o) m : ℕ))) = o + (min (g.length - o) m : ℕ) := by
    rw [show (o : ℤ) + (min (g.length - o) m : ℕ) = (o + min (g.length - o) m : ℕ) by omega,
      IbvVirtualQp.u32_of_lt (by omega), IbvVirtualQp.i32_of_lt (by omega)]
  refine ⟨g, min (g.length - o) m, rfl, by omega, by rw [hrest]; omega, hsum, ?_, ?_⟩
  · cases n with
    | zero => exact absurd hspans.pos (by decide)
    | succ n =>
      have hpred : ((n + 1 : ℕ) : ℤ) - 1 = (n : ℕ) := by omega
      have hoff : (o : ℤ) + (min (g.length - o) m : ℕ) = (o + min (g.length - o) m : ℕ) := by omega
      rw [hpred, hoff]
      rfl
  · intro hne
    cases n with
    | zero => exact absurd hspans.pos (by decide)
    | succ n =>
      cases n with
      | zero => exact absurd rfl hne
      | succ n =>
        rcases hspans.next with ⟨hmin, hnext⟩
        rw [hmin]
        exact ⟨g, n + 1, o + m, rfl, hlen, by omega, by omega, hnext⟩

theorem leftRegions_nil (h : r = 0) : leftRegions maxMsgSize sg r o = [] := by
  subst h
  cases sg <;> rfl

end Cut

namespace IbvVirtualQp

variable {v v' : IbvVirtualQp} {m : ℤ} {q : IbvQp}

/-! ### SENDs -/

def waitingRegions (m : ℤ) (ws : List VirtualSendWr) : List (ℕ × ℕ) :=
  ws.flatMap fun w => leftRegions m w.wr.sg_list w.remainingMsgCnt w.offset

/-- The SENDs `msgs` have been posted, and no other work requests. -/
structure Shipping (m : ℤ) (msgs : List IbvSge) (v : IbvVirtualQp) : Prop where
  size : v.maxMsgSize_ = m
  pending : ∀ w ∈ v.pendingSendVirtualWrQue_, w.wr.opcode = .IBV_WR_SEND ∧
    w.sendExtraNotifyImm = false ∧ InCut m w.wr.sg_list w.remainingMsgCnt w.offset
  posted : ∀ q, v.physicalQps_[0]? = some q → (q.sq.posted.map fun x => region x.wr.sg_list) ++
    waitingRegions m v.pendingSendVirtualWrQue_ = msgs.flatMap (regions m)
  wrIds : ∀ q, v.physicalQps_[0]? = some q → (q.sq.posted.map fun x => x.wr.wr_id).Nodup ∧
    ∀ x ∈ q.sq.posted, x.wr.wr_id < v.nextPhysicalWrId_

variable {msgs : List IbvSge} {w : VirtualSendWr} {rest : List VirtualSendWr}

theorem updatePhysicalSendWr_send (v : IbvVirtualQp) (hop : w.wr.opcode = .IBV_WR_SEND) {g : IbvSge}
    (hg : w.wr.sg_list = some g) {len : ℕ} (hlen : len < 2 ^ 31)
    (hmin : min (i32 (u32 (g.length - w.offset))) v.maxMsgSize_ = len) :
    ∃ wr, v.updatePhysicalSendWrFromVirtualSendWr w =
        .ok (wr, { v with nextPhysicalWrId_ := v.nextPhysicalWrId_ + 1 }) ∧
      wr.wr_id = v.nextPhysicalWrId_ ∧ wr.sg_list = some ⟨u64 (g.addr + w.offset), len, g.lkey⟩ := by
  have hu : u32 (len : ℤ) = len := u32_of_lt (by omega)
  simp only [updatePhysicalSendWrFromVirtualSendWr, hg, hop, hmin, hu, reduceCtorEq, false_and,
    if_false]
  exact ⟨_, rfl, rfl, rfl⟩

theorem advance_plain (v : IbvVirtualQp) (rest : List VirtualSendWr)
    (hextra : w.sendExtraNotifyImm = false) (length : ℕ) :
    v.advance w rest length = { v with pendingSendVirtualWrQue_ :=
      if w.remainingMsgCnt - 1 = 0 then rest else { w with
        offset := i32 (u32 (w.offset + length)), remainingMsgCnt := w.remainingMsgCnt - 1 } :: rest } := by
  by_cases hzero : w.remainingMsgCnt - 1 = 0
  · simp only [advance, hzero, if_true]
  · simp only [advance, hzero, if_false, hextra, Bool.false_eq_true, and_false]

theorem waitingRegions_cons (m : ℤ) (w : VirtualSendWr) (ws : List VirtualSendWr) :
    waitingRegions m (w :: ws) =
      leftRegions m w.wr.sg_list w.remainingMsgCnt w.offset ++ waitingRegions m ws :=
  List.flatMap_cons

theorem waitingRegions_advance (m : ℤ) (w : VirtualSendWr) (rest : List VirtualSendWr)
    (offset : ℤ) :
    waitingRegions m (if w.remainingMsgCnt - 1 = 0 then rest else { w with
      offset := offset, remainingMsgCnt := w.remainingMsgCnt - 1 } :: rest) =
        leftRegions m w.wr.sg_list (w.remainingMsgCnt - 1) offset ++ waitingRegions m rest := by
  split
  · rename_i hzero
    rw [leftRegions_nil hzero, List.nil_append]
  · rw [waitingRegions_cons]

theorem Shipping.segment (h : Shipping m msgs v) (hmax : 1 ≤ m) (hs : Spreading v)
    (hpend : v.pendingSendVirtualWrQue_ = w :: rest) (hlt : 0 < v.physicalQps_.length)
    (hok : v.postSegment 0 w rest = .ok v') : Shipping m msgs v' := by
  rcases h.pending w (by simp [hpend]) with ⟨hop, hextra, hcut⟩
  rcases hcut.next hmax with ⟨g, len, hg, hlen, hmin, hoff, hleft, hnext⟩
  rcases v.updatePhysicalSendWr_send hop hg hlen (by rw [h.size]; exact hmin) with
    ⟨wr, hupd, hid, hsg⟩
  have hq := List.getElem?_eq_getElem hlt
  generalize v.physicalQps_[0] = q at hq
  have hint : w.remainingMsgCnt ≠ INT_MIN := by
    have hpos := (hs.pending w (by simp [hpend])).left
    simp only [INT_MIN]
    omega
  simp only [postSegment, hupd, bind, Except.bind, hq, hsg, hint, if_false] at hok
  rw [advance_plain _ _ hextra, hoff, Except.ok.injEq] at hok
  subst hok
  have hget : ∀ p, (v.physicalQps_.set 0 (q.postSend wr w.wr.wr_id))[0]? = some p →
      p = q.postSend wr w.wr.wr_id := by
    intro p hp
    rw [List.getElem?_set, if_pos rfl, if_pos hlt, Option.some.injEq] at hp
    exact hp.symm
  exact
    { size := h.size
      pending := by
        intro x hx
        simp only at hx
        split at hx
        · exact h.pending x (by simp [hpend, hx])
        · rename_i hne
          rcases List.mem_cons.mp hx with rfl | hx
          · exact ⟨hop, hextra, hnext hne⟩
          · exact h.pending x (by simp [hpend, hx])
      posted := by
        intro p hp
        have hposted := h.posted q hq
        rw [hpend, waitingRegions_cons, hleft] at hposted
        rw [hget p hp, ← hposted]
        simp only [IbvQp.postSend, WorkQueue.posted_post, List.map_append, List.map_singleton, hsg]
        rw [waitingRegions_advance, List.append_assoc]
        rfl
      wrIds := by
        intro p hp
        rcases h.wrIds q hq with ⟨hnodup, hbound⟩
        rw [hget p hp]
        simp only [IbvQp.postSend, WorkQueue.posted_post, List.map_append, List.map_singleton, hid]
        refine ⟨hnodup.append (List.nodup_singleton _) ?_, ?_⟩
        · rw [List.disjoint_singleton]
          intro hmem
          rcases List.mem_map.mp hmem with ⟨x, hx, heq⟩
          exact Nat.lt_irrefl _ (heq ▸ hbound x hx)
        · intro x hx
          rcases List.mem_append.mp hx with hx | hx
          · exact Nat.lt_succ_of_lt (hbound x hx)
          · rw [List.mem_singleton.mp hx]
            simp only
            rw [hid]
            exact Nat.lt_succ_self _ }

theorem Shipping.segmentInvariant (hmax : 1 ≤ m) (msgs : List IbvSge) :
    SegmentInvariant (Shipping m msgs) where
  next u n h := ⟨h.size, h.pending, h.posted, h.wrIds⟩
  segment u u' i w rest hs h hpend hi hfirst hok := by
    have hzero : i = 0 := hfirst (h.pending w (by simp [hpend])).1
    subst hzero
    exact h.segment hmax hs hpend hi hok

theorem Shipping.push (h : Shipping m msgs v) (hmax : 1 ≤ m) {wr : IbvSendWr}
    (hnum : wr.num_sge = 1) (hop : wr.opcode = .IBV_WR_SEND) {g : IbvSge} (hg : wr.sg_list = some g)
    (hpos : 1 ≤ g.length) (hlen : g.length < 2 ^ 31) :
    Shipping m (msgs ++ [g]) { v with pendingSendVirtualWrQue_ := v.pendingSendVirtualWrQue_ ++
      [VirtualSendWr.ofWr wr (segments m g.length : ℕ) false] } := by
  have hcopy : VirtualSendWr.ofWr wr (segments m g.length : ℕ) false =
      ⟨wr, (segments m g.length : ℕ), (segments m g.length : ℕ), 0, false⟩ := by
    simp [VirtualSendWr.ofWr, hg, hnum]
  rcases inCut_start hmax hpos hlen with ⟨hcut, hleft⟩
  rw [hcopy]
  exact
    { __ := h
      pending := by
        intro x hx
        rcases List.mem_append.mp hx with hx | hx
        · exact h.pending x hx
        · rw [List.mem_singleton.mp hx]
          exact ⟨hop, rfl, hg ▸ hcut⟩
      posted := by
        intro q hq
        have hposted := h.posted q hq
        rw [waitingRegions] at hposted ⊢
        rw [List.flatMap_append, ← List.append_assoc, hposted, List.flatMap_append,
          List.flatMap_singleton, List.flatMap_singleton, hg, hleft] }

theorem Shipping.retire (h : Shipping m msgs v) (hq : v.physicalQps_[0]? = some q)
    {sq : WorkQueue SendWqe} (hposted : sq.posted = q.sq.posted) (sts : List PhysicalWrStatus) :
    Shipping m msgs (v.setQp (some 0) (retireSend q sq sts)) := by
  have hget : ∀ p, (v.setQp (some 0) (retireSend q sq sts)).physicalQps_[0]? = some p →
      p.sq.posted = q.sq.posted := by
    intro p hp
    rw [setQp, List.getElem?_set, if_pos rfl, if_pos (List.getElem?_eq_some_iff.mp hq).1,
      Option.some.injEq] at hp
    rw [← hp]
    exact hposted
  exact
    { __ := h
      posted := by
        intro p hp
        rw [hget p hp]
        exact h.posted q hq
      wrIds := by
        intro p hp
        rw [hget p hp]
        exact h.wrIds q hq }

/-! ### Buffers -/

/-- A region of the buffer that a receive is about. -/
def tagged (wrId : ℕ) (ps : List (ℕ × ℕ)) : List (ℕ × ℕ × ℕ) := ps.map fun p => (wrId, p)

def waitingBuffers (m : ℤ) (ws : List VirtualRecvWr) : List (ℕ × ℕ × ℕ) :=
  ws.flatMap fun w =>
    tagged w.wr.wr_id (leftRegions m w.wr.sg_list w.remainingMsgCnt w.offset)

/-- The buffers `bufs`, by the id of their receive, have been posted, and no other receives; `done`
of their segments have completed. -/
structure Filling (m : ℤ) (bufs : List (ℕ × IbvSge)) (done : ℕ) (v : IbvVirtualQp) : Prop where
  size : v.maxMsgSize_ = m
  pending : ∀ w ∈ v.pendingRecvVirtualWrQue_, w.wr.num_sge = 1 ∧
    InCut m w.wr.sg_list w.remainingMsgCnt w.offset
  posted : ∀ q, v.physicalQps_[0]? = some q →
    (q.rq.posted.map fun x => (x.virtualWrId, region x.wr.sg_list)) ++
      waitingBuffers m v.pendingRecvVirtualWrQue_ =
        bufs.flatMap fun b => tagged b.1 (regions m b.2)
  completed : ∀ q, v.physicalQps_[0]? = some q → q.rq.completed = done

variable {done : ℕ} {bufs : List (ℕ × IbvSge)} {x : VirtualRecvWr} {xs : List VirtualRecvWr}

theorem waitingBuffers_cons (m : ℤ) (x : VirtualRecvWr) (xs : List VirtualRecvWr) :
    waitingBuffers m (x :: xs) =
      tagged x.wr.wr_id (leftRegions m x.wr.sg_list x.remainingMsgCnt x.offset) ++
        waitingBuffers m xs :=
  List.flatMap_cons

theorem waitingBuffers_advance (m : ℤ) (x : VirtualRecvWr) (xs : List VirtualRecvWr) (offset : ℤ) :
    waitingBuffers m (if x.remainingMsgCnt - 1 = 0 then xs else { x with
      offset := offset, remainingMsgCnt := x.remainingMsgCnt - 1 } :: xs) =
        tagged x.wr.wr_id (leftRegions m x.wr.sg_list (x.remainingMsgCnt - 1) offset) ++
          waitingBuffers m xs := by
  split
  · rename_i hzero
    rw [leftRegions_nil hzero]
    rfl
  · rw [waitingBuffers_cons]

theorem Filling.segment (h : Filling m bufs done v) (hmax : 1 ≤ m)
    (hpend : v.pendingRecvVirtualWrQue_ = x :: xs) (hok : v.postRecvSegment 0 x xs = .ok v') :
    Filling m bufs done v' := by
  rcases h.pending x (by simp [hpend]) with ⟨hnum, hcut⟩
  rcases hcut.next hmax with ⟨g, len, hg, hlen, hmin, _, hleft, hnext⟩
  cases hq : v.physicalQps_[0]? with
  | none =>
    simp only [postRecvSegment, hq] at hok
    cases hok
  | some q =>
    have hu : u32 (len : ℤ) = len := u32_of_lt (by omega)
    simp only [postRecvSegment, hq, hg, h.size, hmin, hu] at hok
    split at hok
    · cases hok
    · rw [Except.ok.injEq] at hok
      subst hok
      exact
        { size := h.size
          pending := by
            intro y hy
            simp only at hy
            split at hy
            · exact h.pending y (by simp [hpend, hy])
            · rename_i hne
              rcases List.mem_cons.mp hy with rfl | hy
              · exact ⟨hnum, hnext hne⟩
              · exact h.pending y (by simp [hpend, hy])
          posted := by
            intro p hp
            have hposted := h.posted q hq
            rw [hpend, waitingBuffers_cons, hleft] at hposted
            rw [setQp, List.getElem?_set, if_pos rfl, if_pos (List.getElem?_eq_some_iff.mp hq).1,
              Option.some.injEq] at hp
            rw [← hp, ← hposted]
            simp only [IbvQp.postRecv, WorkQueue.posted_post, List.map_append, List.map_singleton]
            rw [waitingBuffers_advance, List.append_assoc]
            rfl
          completed := by
            intro p hp
            rw [setQp, List.getElem?_set, if_pos rfl, if_pos (List.getElem?_eq_some_iff.mp hq).1,
              Option.some.injEq] at hp
            rw [← hp]
            exact h.completed q hq }

theorem Filling.partInvariant (hmax : 1 ≤ m) (bufs : List (ℕ × IbvSge)) (done : ℕ) :
    PartInvariant (Filling m bufs done) where
  notify u u' w rest _ h hpend hsge _ := by
    have hnum := (h.pending w (by simp [hpend])).1
    rw [hsge] at hnum
    exact absurd hnum (by decide)
  segment u u' w rest _ h hpend _ hok := h.segment hmax hpend hok

theorem Filling.push (h : Filling m bufs done v) (hmax : 1 ≤ m) {wr : IbvRecvWr} (hnum : wr.num_sge = 1)
    {g : IbvSge} (hg : wr.sg_list = some g) (hpos : 1 ≤ g.length) (hlen : g.length < 2 ^ 31) :
    Filling m (bufs ++ [(wr.wr_id, g)]) done { v with pendingRecvVirtualWrQue_ :=
      v.pendingRecvVirtualWrQue_ ++ [VirtualRecvWr.ofWr wr (segments m g.length : ℕ)] } := by
  have hcopy : VirtualRecvWr.ofWr wr (segments m g.length : ℕ) =
      ⟨wr, (segments m g.length : ℕ), (segments m g.length : ℕ), 0⟩ := by
    simp [VirtualRecvWr.ofWr, hg, hnum]
  rcases inCut_start hmax hpos hlen with ⟨hcut, hleft⟩
  rw [hcopy]
  exact
    { __ := h
      pending := by
        intro y hy
        rcases List.mem_append.mp hy with hy | hy
        · exact h.pending y hy
        · rw [List.mem_singleton.mp hy]
          exact ⟨hnum, hg ▸ hcut⟩
      posted := by
        intro q hq
        have hposted := h.posted q hq
        rw [waitingBuffers] at hposted ⊢
        rw [List.flatMap_append, ← List.append_assoc, hposted, List.flatMap_append,
          List.flatMap_singleton, List.flatMap_singleton, hg, hleft] }

theorem Filling.retire (h : Filling m bufs done v) (hq : v.physicalQps_[0]? = some q)
    {rq : WorkQueue RecvWqe} (hposted : rq.posted = q.rq.posted)
    (hcompleted : rq.completed = q.rq.completed + 1) (sts : List PhysicalWrStatus) :
    Filling m bufs (done + 1) (v.setQp (some 0) (retireRecv q rq sts)) := by
  have hget : ∀ p, (v.setQp (some 0) (retireRecv q rq sts)).physicalQps_[0]? = some p →
      p.rq = rq := by
    intro p hp
    rw [setQp, List.getElem?_set, if_pos rfl, if_pos (List.getElem?_eq_some_iff.mp hq).1,
      Option.some.injEq] at hp
    rw [← hp]
    rfl
  exact
    { __ := h
      posted := by
        intro p hp
        rw [hget p hp, hposted]
        exact h.posted q hq
      completed := by
        intro p hp
        rw [hget p hp, hcompleted, h.completed q hq] }

end IbvVirtualQp
end TorchComms.Ibverbx
