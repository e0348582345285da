import TorchComms.Ibverbx.SendSide

/-! # Sending in DQPLB mode: numbered segments

Segments are numbered in the order in which they are posted, over all data QPs, and carry their
number and whether they end their message as immediate data.
-/
namespace TorchComms.Ibverbx

open Foundation

/-- Whether each segment of a message of `n` segments ends it. -/
def lastFlags : ℕ → List Bool
  | 0 => []
  | n + 1 => decide (n = 0) :: lastFlags n

/-- The segments of one QP, with their numbers, among all segments: the QP of each, and whether
it ends its message. -/
def onQp (segs : List (ℕ × Bool)) (j : ℕ) : List ((ℕ × Bool) × ℕ) :=
  segs.zipIdx.filter fun s => s.1.1 = j

theorem onQp_concat (segs : List (ℕ × Bool)) (i j : ℕ) (last : Bool) :
    onQp (segs ++ [(i, last)]) j =
      onQp segs j ++ if i = j then [((i, last), segs.length)] else [] := by
  simp only [onQp, List.zipIdx_append, List.filter_append, List.zipIdx_singleton, Nat.zero_add]
  by_cases hij : i = j <;> simp [hij]

namespace IbvVirtualQp

open DqplbSeqTracker (immOf)

variable {v v' : IbvVirtualQp} {i : ℕ} {w : VirtualSendWr} {rest : List VirtualSendWr}
  {counts : List ℕ} {segs : List (ℕ × Bool)}

/-- The segments that wait, by whether they end their message. -/
def waitingFlags (ws : List VirtualSendWr) : List Bool :=
  ws.flatMap fun w => lastFlags w.remainingMsgCnt.toNat

/-- The messages of `counts` segments each have been posted, and of their segments `segs`. -/
structure Posting (counts : List ℕ) (segs : List (ℕ × Bool)) (v : IbvVirtualQp) : Prop where
  scheme : v.loadBalancingScheme_ = .DQPLB
  imms : ∀ w ∈ v.pendingSendVirtualWrQue_,
    w.wr.opcode = .IBV_WR_RDMA_WRITE_WITH_IMM ∧ w.sendExtraNotifyImm = false
  flags : segs.map Prod.snd ++ waitingFlags v.pendingSendVirtualWrQue_ = counts.flatMap lastFlags
  sendNext : v.dqplbSeqTracker.sendNext_ = segs.length % kSeqNumMask
  wrId : v.nextPhysicalWrId_ = segs.length
  place : ∀ j q, v.physicalQps_[j]? = some q →
    q.sq.posted.map (fun x => (x.wr.wr_id, x.wr.imm_data)) =
      (onQp segs j).map fun s => (s.2, immOf s.2 s.1.2)
  range : ∀ s ∈ segs, s.1 < v.physicalQps_.length

/-! ### One segment -/

variable {sg : IbvSge} {q : IbvQp}

theorem updatePhysicalSendWr_dqplb (hscheme : v.loadBalancingScheme_ = .DQPLB)
    (hsg : w.wr.sg_list = some sg) (hop : w.wr.opcode = .IBV_WR_RDMA_WRITE_WITH_IMM) :
    ∃ wr sg', v.updatePhysicalSendWrFromVirtualSendWr w = .ok (wr, { v with
        nextPhysicalWrId_ := v.nextPhysicalWrId_ + 1
        dqplbSeqTracker := (v.dqplbSeqTracker.getSendImm w.remainingMsgCnt).2 }) ∧
      wr.sg_list = some sg' ∧ wr.wr_id = v.nextPhysicalWrId_ ∧
      wr.imm_data = (v.dqplbSeqTracker.getSendImm w.remainingMsgCnt).1 := by
  simp only [updatePhysicalSendWrFromVirtualSendWr, hsg, hop, hscheme, and_self, if_true]
  exact ⟨_, _, rfl, rfl, rfl, rfl⟩

theorem advance_dqplb (v : IbvVirtualQp) (rest : List VirtualSendWr)
    (hleft : 0 < w.remainingMsgCnt) (hextra : w.sendExtraNotifyImm = false) (length : ℕ) :
    ∃ ps, v.advance w rest length = { v with pendingSendVirtualWrQue_ := ps } ∧
      waitingFlags (w :: rest) = decide (w.remainingMsgCnt = 1) :: waitingFlags ps ∧
      ∀ x ∈ ps, x ∈ rest ∨ x.wr = w.wr ∧ x.sendExtraNotifyImm = false := by
  rcases Int.eq_ofNat_of_zero_le (by omega : 0 ≤ w.remainingMsgCnt - 1) with ⟨n, hn⟩
  have hcnt : w.remainingMsgCnt = n + 1 := by omega
  by_cases hone : n = 0
  · have hzero : w.remainingMsgCnt - 1 = 0 := by omega
    refine ⟨rest, ?_, ?_, fun x hx => Or.inl hx⟩
    · simp only [advance, hzero, if_true]
    · simp [waitingFlags, hcnt, hone, lastFlags]
  · have hzero : ¬ w.remainingMsgCnt - 1 = 0 := by omega
    refine ⟨{ w with
      offset := i32 (u32 (w.offset + length)), remainingMsgCnt := w.remainingMsgCnt - 1 } :: rest,
      ?_, ?_, ?_⟩
    · simp only [advance, hzero, if_false, hextra, Bool.false_eq_true, and_false]
    · simp [waitingFlags, lastFlags, hcnt]
    · intro x hx
      rcases List.mem_cons.mp hx with rfl | hx
      · exact Or.inr ⟨rfl, hextra⟩
      · exact Or.inl hx

theorem Posting.segment (h : Posting counts segs v) (hs : Spreading v)
    (hpend : v.pendingSendVirtualWrQue_ = w :: rest) (hi : i < v.physicalQps_.length)
    (hok : v.postSegment i w rest = .ok v') :
    Posting counts (segs ++ [(i, decide (w.remainingMsgCnt = 1))]) v' := by
  have hw : Cuttable w := hs.pending w (by simp [hpend])
  rcases Option.isSome_iff_exists.mp hw.sg with ⟨sg, hsg⟩
  rcases h.imms w (by simp [hpend]) with ⟨hop, hextra⟩
  rcases updatePhysicalSendWr_dqplb h.scheme hsg hop with ⟨wr, sg', hupd, hsg', hid, himm⟩
  rw [DqplbSeqTracker.getSendImm_eq h.sendNext] at hupd himm
  have hq := List.getElem?_eq_getElem hi
  generalize v.physicalQps_[i] = q at hq
  have hmin : w.remainingMsgCnt ≠ INT_MIN := by
    have hleft := hw.left
    simp only [INT_MIN]
    omega
  rcases advance_dqplb (({ v with
      nextPhysicalWrId_ := v.nextPhysicalWrId_ + 1
      dqplbSeqTracker := { v.dqplbSeqTracker with
        sendNext_ := (segs.length + 1) % kSeqNumMask } } : IbvVirtualQp).setQp (some i)
      (q.postSend wr w.wr.wr_id)) rest hw.left hextra sg'.length with ⟨ps, hadv, hflags, hmem⟩
  simp only [postSegment, hupd, bind, Except.bind, hq, hsg', hmin, if_false] at hok
  rw [hadv, Except.ok.injEq] at hok
  subst hok
  exact
    { scheme := h.scheme
      imms := by
        intro x hx
        rcases hmem x hx with hx | ⟨hxw, hxe⟩
        · exact h.imms x (by simp [hpend, hx])
        · exact ⟨hxw ▸ hop, hxe⟩
      flags := by
        rw [← h.flags, hpend, hflags, List.map_append, List.append_assoc]
        rfl
      sendNext := by
        rw [List.length_append]
        rfl
      wrId := by
        rw [List.length_append, ← h.wrId]
        rfl
      place := by
        intro j p hp
        simp only [setQp, List.getElem?_set] at hp
        rw [onQp_concat]
        by_cases hij : i = j
        · subst hij
          rw [if_pos rfl, if_pos hi, Option.some.injEq] at hp
          subst hp
          rw [if_pos rfl, List.map_append, ← h.place i q hq]
          simp [IbvQp.postSend, hid, himm, h.wrId]
        · rw [if_neg hij] at hp
          rw [if_neg hij, List.append_nil]
          exact h.place j p hp
      range := by
        intro s hs'
        simp only [setQp, List.length_set]
        rcases List.mem_append.mp hs' with hs' | hs'
        · exact h.range s hs'
        · rw [List.mem_singleton.mp hs']
          exact hi }

theorem Posting.segmentInvariant (counts : List ℕ) (segs : List (ℕ × Bool)) :
    SegmentInvariant fun v => ∃ segs', segs <+: segs' ∧ Posting counts segs' v where
  next := by
    rintro u n ⟨segs', hpre, h⟩
    exact ⟨segs', hpre, h.scheme, h.imms, h.flags, h.sendNext, h.wrId, h.place, h.range⟩
  segment := by
    rintro u u' i w rest hs ⟨segs', hpre, h⟩ hpend hi _ hok
    exact ⟨_, hpre.trans (List.prefix_append _ _), h.segment hs hpend hi hok⟩

/-! ### Calls of the sender -/

section

variable (h : Posting counts segs v)
include h

theorem Posting.postSend (hs : Sending v) (hmax : 1 ≤ v.maxMsgSize_)
    {wr : IbvSendWr} (hwr : Sendable v.maxMsgSize_ wr)
    (hop : wr.opcode = .IBV_WR_RDMA_WRITE_WITH_IMM) (hsg : sg ∈ wr.sg_list) :
    ∃ r v' segs', v.postSend wr = .ok (r, v') ∧ segs <+: segs' ∧
      Posting (counts ++ [segments v.maxMsgSize_ sg.length]) segs' v' ∧ Sending v' ∧
      v'.physicalQps_.length = v.physicalQps_.length ∧ v'.maxMsgSize_ = v.maxMsgSize_ := by
  rcases postSend_spec hs hmax hwr with ⟨n, extra, v', hok, _, hn, _, hextra, hs', hmoved, _⟩
  have hfalse : extra = false := by
    cases extra with
    | false => rfl
    | true =>
      have hspray := (hextra.mp rfl).2
      rw [h.scheme] at hspray
      cases hspray
  subst hfalse
  have hcount := hn sg hsg
  simp only [Bool.false_eq_true, if_false, Int.add_zero] at hcount
  have hcopy : (VirtualSendWr.ofWr wr n false).wr = wr := by
    rw [Option.mem_def] at hsg
    simp [VirtualSendWr.ofWr, hsg, hwr.num_sge]
  have hadd : Posting (counts ++ [segments v.maxMsgSize_ sg.length]) segs { v with
      pendingSendVirtualWrQue_ :=
        v.pendingSendVirtualWrQue_ ++ [VirtualSendWr.ofWr wr n false] } :=
    { __ := h
      imms := by
        intro w hw
        rcases List.mem_append.mp hw with hw | hw
        · exact h.imms w hw
        · rw [List.mem_singleton.mp hw, hcopy]
          exact ⟨hop, rfl⟩
      flags := by
        have hflags := h.flags
        have hleft : (VirtualSendWr.ofWr wr n false).remainingMsgCnt = n := rfl
        simp only [waitingFlags] at hflags ⊢
        rw [List.flatMap_append, List.flatMap_append, ← List.append_assoc, hflags,
          List.flatMap_singleton, List.flatMap_singleton, hleft, hcount, Int.toNat_natCast] }
  rcases hmoved.keeps _ (Posting.segmentInvariant _ segs) ⟨segs, List.prefix_rfl, hadd⟩ with
    ⟨segs', hpre, h'⟩
  exact ⟨_, v', segs', hok, hpre, h', hs', hmoved.length, hmoved.maxMsgSize⟩

theorem Posting.retire
    (hq : v.physicalQps_[i]? = some q) {sq : WorkQueue SendWqe} (hposted : sq.posted = q.sq.posted)
    (sts : List PhysicalWrStatus) :
    Posting counts segs (v.setQp (some i) (retireSend q sq sts)) where
  __ := h
  place := by
    intro j p hp
    simp only [setQp, List.getElem?_set] at hp
    by_cases hij : i = j
    · subst hij
      rw [if_pos rfl, if_pos (List.getElem?_eq_some_iff.mp hq).1, Option.some.injEq] at hp
      subst hp
      rw [retireSend, hposted]
      exact h.place i q hq
    · rw [if_neg hij] at hp
      exact h.place j p hp
  range := by
    intro s hs
    simp only [setQp, List.length_set]
    exact h.range s hs

theorem Posting.completeSend (hs : Sending v)
    (hq : v.physicalQps_[i]? = some q) {x : SendWqe} {xs : List SendWqe}
    (hout : q.sq.outstanding = x :: xs) :
    ∃ q' r v' segs', q.completeSend = some (x, q') ∧
      (v.setQp (some i) q').processRequest ⟨.SEND, x.wr.wr_id, q.qp_num, 0⟩ = .ok (r, v') ∧
      segs <+: segs' ∧ Posting counts segs' v' ∧ Sending v' ∧
      v'.physicalQps_.length = v.physicalQps_.length ∧ v'.maxMsgSize_ = v.maxMsgSize_ := by
  have hqp : v.qp? (some i) = some q := hq
  rcases completeSend_spec hs hqp hout with
    ⟨sq, v', hcomp, hposted, hproc, hs', hmoved, _, _⟩
  rcases hmoved.keeps _ (Posting.segmentInvariant _ segs)
    ⟨segs, List.prefix_rfl, h.retire hq hposted _⟩ with ⟨segs', hpre, h'⟩
  refine ⟨_, _, v', segs', hcomp, hproc, hpre, h', hs', ?_, hmoved.maxMsgSize⟩
  rw [hmoved.length]
  simp [setQp]

end

end IbvVirtualQp

/-! ### Messages and segments -/

theorem lastFlags_length (n : ℕ) : (lastFlags n).length = n := by
  induction n with
  | zero => rfl
  | succ n ih => rw [lastFlags, List.length_cons, ih]

theorem count_take_lastFlags (n p : ℕ) (hn : 1 ≤ n) :
    ((lastFlags n).take p).count true = if n ≤ p then 1 else 0 := by
  induction n generalizing p with
  | zero => exact absurd hn (by decide)
  | succ n ih =>
    cases p with
    | zero => simp
    | succ p =>
      cases n with
      | zero => simp [lastFlags]
      | succ n =>
        rw [lastFlags, List.take_succ_cons, List.count_cons, ih p (by omega)]
        simp

theorem count_take_flags {counts : List ℕ} (hcounts : ∀ n ∈ counts, 1 ≤ n) (p : ℕ) :
    ((counts.flatMap lastFlags).take p).count true =
      (List.range counts.length).countP fun k => (counts.take (k + 1)).sum ≤ p := by
  induction counts generalizing p with
  | nil => simp
  | cons n counts ih =>
    have hn := hcounts n List.mem_cons_self
    have hrest := ih (fun m hm => hcounts m (List.mem_cons_of_mem _ hm)) (p - n)
    rw [List.flatMap_cons, List.take_append, List.count_append, count_take_lastFlags n p hn,
      lastFlags_length, hrest, List.length_cons, List.range_succ_eq_map, List.countP_cons,
      List.countP_map]
    by_cases hle : n ≤ p
    · have hshift : ∀ k : ℕ, (n + (counts.take (k + 1)).sum ≤ p) ↔
          ((counts.take (k + 1)).sum ≤ p - n) := by
        intro k
        omega
      simp [hle, hshift, Function.comp_def, Nat.add_comm]
    · have hshift : ∀ k : ℕ, ¬ n + (counts.take (k + 1)).sum ≤ p := by
        intro k
        omega
      rw [← hrest, Nat.sub_eq_zero_of_le (Nat.le_of_not_le hle)]
      simp [hle, hshift, Function.comp_def]

end TorchComms.Ibverbx
