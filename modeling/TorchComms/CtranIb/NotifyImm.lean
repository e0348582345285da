import TorchComms.CtranIb.VcLogs
import TorchComms.Foundation.ReorderBuffer
import Mathlib.Data.Nat.Bitwise

/-! # Numbers in the immediate data of a connection

A put in DQPLB mode numbers its work requests for the receiver, and a fast put takes a number
without saying which. The receiver holds what comes early and counts the notifications of what it
has seen without a gap.
-/
namespace TorchComms.CtranIb

open Foundation Relation

/-! ### The receiving side -/

/-- The fields of the receiving connection. -/
structure NotifyState where
  rcvNxt_ : ℕ := 0
  rcvdSeqNums_ : AList fun _ : ℕ => Bool := ∅
  notifyCount_ : ℕ := 0

namespace NotifyState

/-- The loop at the end of `writeImmRcvd`. -/
def drain (s : NotifyState) : NotifyState :=
  let r := ReorderBuffer.drain (kSeqNumMask + 1) s.rcvdSeqNums_.entries.length
    ⟨s.rcvNxt_, s.rcvdSeqNums_⟩
  ⟨r.2.next, r.2.held, s.notifyCount_ + r.1.count true⟩

/-- `writeImmRcvd` for a data QP. -/
def writeImmRcvd (s : NotifyState) (idx immData : ℕ) : Except VcFault NotifyState :=
  let notify := immData &&& 1 <<< kNotifyBit != 0
  if immData &&& 1 <<< kFastPutBit != 0 then
    if idx ≠ 0 then .error .abort
    else .ok (drain { s with
      rcvNxt_ := (s.rcvNxt_ + 1) &&& kSeqNumMask
      notifyCount_ := s.notifyCount_ + notify.toNat })
  else .ok (drain { s with rcvdSeqNums_ := s.rcvdSeqNums_.insert (immData &&& kSeqNumMask) notify })

/-- `checkNotify`, with the number of notifications taken. -/
def checkNotify (s : NotifyState) : ℕ × NotifyState :=
  if 0 < s.notifyCount_ then (1, { s with notifyCount_ := s.notifyCount_ - 1 }) else (0, s)

def checkNotifies (s : NotifyState) (pendingNotifyCnt : ℕ) : ℕ × NotifyState :=
  let notified := min s.notifyCount_ pendingNotifyCnt
  (notified, { s with notifyCount_ := s.notifyCount_ - notified })

end NotifyState

/-! ### Immediate data -/

/-- The immediate of the work request numbered `i`, which ends its put if `last`. -/
def seqImm (i : ℕ) (last : Bool) : ℕ :=
  if last then i % (kSeqNumMask + 1) ||| 1 <<< kNotifyBit else i % (kSeqNumMask + 1)

def fastImm (notify : Bool) : ℕ :=
  if notify then 1 <<< kFastPutBit ||| 1 <<< kNotifyBit else 1 <<< kFastPutBit

theorem and_kSeqNumMask (i : ℕ) : i &&& kSeqNumMask = i % (kSeqNumMask + 1) :=
  Nat.and_two_pow_sub_one_eq_mod i 24

theorem mod_lt_two_pow (i : ℕ) : i % (kSeqNumMask + 1) < 2 ^ 24 := Nat.mod_lt _ (by decide)

theorem mod_and_bit (i : ℕ) {b : ℕ} (hb : 24 ≤ b) : i % (kSeqNumMask + 1) &&& 1 <<< b = 0 := by
  have hlt : i % (kSeqNumMask + 1) < 2 ^ b :=
    Nat.lt_of_lt_of_le (mod_lt_two_pow i) (Nat.pow_le_pow_right (by decide) hb)
  rw [Nat.one_shiftLeft, Nat.and_two_pow, Nat.testBit_lt_two_pow hlt]
  simp

theorem seqImm_fast (i : ℕ) (last : Bool) : (seqImm i last &&& 1 <<< kFastPutBit != 0) = false := by
  have hlow := mod_and_bit i (b := kFastPutBit) (by decide)
  cases last with
  | false => simp [seqImm, hlow]
  | true =>
    rw [seqImm, if_pos rfl, Nat.and_or_distrib_right, hlow]
    decide

theorem seqImm_notify (i : ℕ) (last : Bool) : (seqImm i last &&& 1 <<< kNotifyBit != 0) = last := by
  have hlow := mod_and_bit i (b := kNotifyBit) (by decide)
  cases last with
  | false => simp [seqImm, hlow]
  | true =>
    rw [seqImm, if_pos rfl, Nat.and_or_distrib_right, hlow]
    decide

theorem seqImm_mask (i : ℕ) (last : Bool) : seqImm i last &&& kSeqNumMask = i % (kSeqNumMask + 1) := by
  have hmod : i % (kSeqNumMask + 1) &&& kSeqNumMask = i % (kSeqNumMask + 1) := by
    rw [and_kSeqNumMask, Nat.mod_mod]
  cases last with
  | false => exact hmod
  | true =>
    rw [seqImm, if_pos rfl, Nat.and_or_distrib_right, hmod]
    exact Nat.or_zero _

theorem fastImm_fast (notify : Bool) : (fastImm notify &&& 1 <<< kFastPutBit != 0) = true := by
  cases notify <;> decide

theorem fastImm_notify (notify : Bool) : (fastImm notify &&& 1 <<< kNotifyBit != 0) = notify := by
  cases notify <;> decide

namespace NotifyState

variable {s : NotifyState} {f : ℕ → Bool} {S : Set ℕ} {r i : ℕ}

/-- The numbers `S` of the stream `f` have been processed, those below `r` without a gap. -/
def Holds (s : NotifyState) (f : ℕ → Bool) (S : Set ℕ) (r : ℕ) : Prop :=
  ReorderBuffer.Holds (kSeqNumMask + 1) f S r ⟨s.rcvNxt_, s.rcvdSeqNums_⟩

theorem Holds.drain (h : s.Holds f S r) :
    ∃ n, s.drain.Holds f S (r + n) ∧ r + n ∉ S ∧
      s.drain.notifyCount_ = s.notifyCount_ + ((List.range' r n).map f).count true := by
  rcases ReorderBuffer.drain_spec h (Nat.le_refl _) with ⟨n, hout, hholds, hmiss⟩
  refine ⟨n, hholds, hmiss, ?_⟩
  rw [← hout]
  rfl

theorem writeImmRcvd_seqImm (s : NotifyState) (idx i : ℕ) (last : Bool) :
    s.writeImmRcvd idx (seqImm i last) = .ok (NotifyState.drain
      { s with rcvdSeqNums_ := s.rcvdSeqNums_.insert (i % (kSeqNumMask + 1)) last }) := by
  simp only [writeImmRcvd, seqImm_fast, Bool.false_eq_true, if_false, seqImm_notify, seqImm_mask]

theorem writeImmRcvd_fastImm (s : NotifyState) (notify : Bool) :
    s.writeImmRcvd 0 (fastImm notify) = .ok (NotifyState.drain { s with
      rcvNxt_ := (s.rcvNxt_ + 1) &&& kSeqNumMask
      notifyCount_ := s.notifyCount_ + notify.toNat }) := by
  simp only [writeImmRcvd, fastImm_fast, if_true, fastImm_notify, ne_eq, not_true, if_false]

theorem Holds.writeImmRcvd_seq (h : s.Holds f S r) (hnew : i ∉ S) (hwin : i < r + (kSeqNumMask + 1))
    (idx : ℕ) :
    ∃ n s', s.writeImmRcvd idx (seqImm i (f i)) = .ok s' ∧ s'.Holds f (insert i S) (r + n) ∧
      r + n ∉ insert i S ∧
      s'.notifyCount_ = s.notifyCount_ + ((List.range' r n).map f).count true := by
  rcases ReorderBuffer.receive_spec h hnew hwin with ⟨n, hout, hholds, hmiss⟩
  refine ⟨n, _, writeImmRcvd_seqImm s idx i (f i), hholds, hmiss, ?_⟩
  rw [← hout]
  rfl

theorem Holds.writeImmRcvd_fast (h : s.Holds f S r) (hnew : r ∉ S) :
    ∃ n s', s.writeImmRcvd 0 (fastImm (f r)) = .ok s' ∧ s'.Holds f (insert r S) (r + n) ∧
      r + n ∉ insert r S ∧
      s'.notifyCount_ = s.notifyCount_ + ((List.range' r n).map f).count true := by
  have hpass : Holds ⟨(s.rcvNxt_ + 1) &&& kSeqNumMask, s.rcvdSeqNums_,
      s.notifyCount_ + (f r).toNat⟩ f (insert r S) (r + 1) := by
    rw [Holds, and_kSeqNumMask]
    exact ReorderBuffer.Holds.pass h hnew (Nat.succ_pos _)
  rcases hpass.drain with ⟨n, hholds, hmiss, hcount⟩
  rw [Nat.add_assoc, Nat.add_comm 1] at hholds hmiss
  refine ⟨n + 1, _, writeImmRcvd_fastImm s (f r), hholds, hmiss, ?_⟩
  rw [hcount, List.range'_succ, List.map_cons, List.count_cons]
  cases f r with
  | false => simp
  | true =>
    simp
    omega

end NotifyState

/-! ### The sending side -/

def Posted.isImm (p : Posted) : Bool := p.wr.opcode = .RDMA_WRITE_WITH_IMM

def Posted.notifies (p : Posted) : Bool := p.wr.immData &&& 1 <<< kNotifyBit != 0

/-- A put whose notification comes with its data. -/
def Issued.withImm (i : Issued) : Bool :=
  i.kind = .put && (i.notify && (i.fast || decide (i.vcMode ≠ .spray)))

namespace CtranIbVirtualConn

variable {t t' : CtranIbVirtualConn} {kind k : OpKind} {op : OpInfo} {rest : List OpInfo}
  {p : Posted} {f : FastOpInfo} {fs : List FastOpInfo}

/-- The work requests that take a number, in the order of their numbers. -/
def numbered (t : CtranIbVirtualConn) : List Posted := t.posted.filter Posted.isImm

structure Numbered (t : CtranIbVirtualConn) : Prop where
  next : t.sndNxt_ = t.numbered.length % (kSeqNumMask + 1)
  regular : ∀ n p, t.numbered[n]? = some p → p.fast = false → p.wr.immData = seqImm n p.notifies
  fast : ∀ p ∈ t.numbered, p.fast = true → p.wr.immData = fastImm p.notifies ∧ p.qpIdx = 0
  ids : (t.issued.filter Issued.withImm).map (·.id) = (t.numbered.filter Posted.notifies).map (·.id) ++
    ((t.ops .put).pending.filter sequenced).map (·.id)
  ordered : t.numbered.Pairwise fun p p' => p.id ≤ p'.id ∧ (p.notifies → p.id < p'.id)
  bound : ∀ p ∈ t.numbered, ∀ op ∈ (t.ops .put).pending, p.id ≤ op.id ∧ (p.notifies → p.id < op.id)

theorem numbered_init (cfg : VcConfig) : Numbered { cfg := cfg } where
  next := rfl
  regular _ _ h := nomatch h
  fast _ h := nomatch h
  ids := rfl
  ordered := List.Pairwise.nil
  bound _ h := nomatch h

theorem Numbered.of_same (h : t.Numbered) (hnumbered : t'.numbered = t.numbered)
    (hnext : t'.sndNxt_ = t.sndNxt_) (hissued : t'.issued.filter Issued.withImm =
      t.issued.filter Issued.withImm) (hids : ((t'.ops .put).pending.filter sequenced).map (·.id) =
      ((t.ops .put).pending.filter sequenced).map (·.id))
    (hsub : ∀ op ∈ (t'.ops .put).pending, ∃ op' ∈ (t.ops .put).pending, op'.id = op.id) :
    t'.Numbered where
  next := by
    rw [hnumbered, hnext]
    exact h.next
  regular := by
    rw [hnumbered]
    exact h.regular
  fast := by
    rw [hnumbered]
    exact h.fast
  ids := by
    rw [hissued, hnumbered, hids]
    exact h.ids
  ordered := by
    rw [hnumbered]
    exact h.ordered
  bound := by
    rw [hnumbered]
    intro p hp op hop
    rcases hsub op hop with ⟨op', hop', hid⟩
    rw [← hid]
    exact h.bound p hp op' hop'

theorem numbered_append (h : t'.posted = t.posted ++ [p]) :
    t'.numbered = t.numbered ++ if p.isImm then [p] else [] := by
  rw [numbered, h, List.filter_append, numbered]
  by_cases himm : p.isImm <;> simp [himm]

theorem newWqe_isImm (t : CtranIbVirtualConn) (kind : OpKind) (i : ℕ) (op : OpInfo) :
    (t.newWqe kind i op).isImm = (decide (kind = .put) && sequenced op) := by
  cases kind with
  | put => cases hs : sequenced op <;> simp [newWqe, dataWr, Posted.isImm, hs]
  | get => rfl

section

variable (h : t.Numbered)
include h

theorem newWqe_imm (hs : sequenced op) (i : ℕ) :
    (t.newWqe .put i op).wr.immData = seqImm t.numbered.length (t.cfg.isFinal op) := by
  simp only [newWqe, dataWr, hs, if_true, h.next, seqImm]

theorem newWqe_notifies (hs : sequenced op) (i : ℕ) :
    (t.newWqe .put i op).notifies = t.cfg.isFinal op := by
  rw [Posted.notifies, newWqe_imm h hs, seqImm_notify]

theorem Numbered.postWqe_plain (hp : (t.ops kind).pending = op :: rest) (i : ℕ)
    (hs : ¬(kind = .put ∧ sequenced op)) : (t.postWqe kind i op rest).Numbered := by
  have himm : (t.newWqe kind i op).isImm = false := by
    rw [newWqe_isImm]
    simpa using hs
  have hnumbered : (t.postWqe kind i op rest).numbered = t.numbered := by
    rw [numbered_append (p := t.newWqe kind i op) rfl, himm]
    exact List.append_nil _
  have hnext : (t.postWqe kind i op rest).sndNxt_ = t.sndNxt_ := if_neg hs
  by_cases hk : OpKind.put = kind
  · subst hk
    have hplain : sequenced op = false := by simpa using hs
    have hadv : sequenced (t.cfg.advance op) = false := hplain
    apply h.of_same hnumbered hnext rfl
    · rw [postWqe_ops_self, OpQueues.advance, hp]
      split <;> simp [hplain, hadv]
    · intro op' hop'
      rw [postWqe_ops_self, OpQueues.advance] at hop'
      rw [hp]
      split at hop'
      · exact ⟨op', List.mem_cons_of_mem _ hop', rfl⟩
      · rw [List.mem_cons] at hop'
        rcases hop' with rfl | hop'
        · exact ⟨op, List.mem_cons_self .., rfl⟩
        · exact ⟨op', List.mem_cons_of_mem _ hop', rfl⟩
  · apply h.of_same hnumbered hnext rfl
    · rw [postWqe_ops_of_ne hk]
    · intro op' hop'
      rw [postWqe_ops_of_ne hk] at hop'
      exact ⟨op', hop', rfl⟩

theorem Numbered.append (hnumbered : t'.numbered = t.numbered ++ [p])
    (hnext : t'.sndNxt_ = (t.sndNxt_ + 1) &&& kSeqNumMask)
    (hregular : p.fast = false → p.wr.immData = seqImm t.numbered.length p.notifies)
    (hfast : p.fast = true → p.wr.immData = fastImm p.notifies ∧ p.qpIdx = 0)
    (hids : (t'.issued.filter Issued.withImm).map (·.id) =
      (t.numbered.filter Posted.notifies).map (·.id) ++ (if p.notifies then [p.id] else []) ++
        ((t'.ops .put).pending.filter sequenced).map (·.id))
    (hbefore : ∀ p' ∈ t.numbered, p'.id ≤ p.id ∧ (p'.notifies → p'.id < p.id))
    (hbound : ∀ op ∈ (t'.ops .put).pending, p.id ≤ op.id ∧ (p.notifies → p.id < op.id)) :
    t'.Numbered where
  next := by
    rw [hnext, h.next, and_kSeqNumMask, hnumbered, List.length_append, List.length_singleton,
      Nat.mod_add_mod]
  regular n p' hp' hf := by
    rw [hnumbered] at hp'
    rcases getElem?_concat_cases hp' with hold | ⟨rfl, rfl⟩
    · exact h.regular n p' hold hf
    · exact hregular hf
  fast p' hp' hf := by
    rw [hnumbered, List.mem_append, List.mem_singleton] at hp'
    rcases hp' with hp' | rfl
    · exact h.fast p' hp' hf
    · exact hfast hf
  ids := by
    rw [hids, hnumbered, List.filter_append, List.map_append]
    congr 2
    by_cases hn : p.notifies <;> simp [hn]
  ordered := by
    rw [hnumbered, List.pairwise_append]
    refine ⟨h.ordered, List.pairwise_singleton .., fun p' hp' q hq => ?_⟩
    rw [List.mem_singleton] at hq
    subst hq
    exact hbefore p' hp'
  bound p' hp' op hop := by
    rw [hnumbered, List.mem_append, List.mem_singleton] at hp'
    rcases hp' with hp' | rfl
    · rcases hbefore p' hp' with ⟨hle, hlt⟩
      rcases hbound op hop with ⟨hle', _⟩
      exact ⟨Nat.le_trans hle hle', fun hn => Nat.lt_of_lt_of_le (hlt hn) hle'⟩
    · exact hbound op hop

theorem Numbered.postWqe_seq (hcons : t.Consistent)
    (hp : (t.ops .put).pending = op :: rest) (i : ℕ) (hs : sequenced op) :
    (t.postWqe .put i op rest).Numbered := by
  have himm : (t.newWqe .put i op).isImm = true := by
    rw [newWqe_isImm]
    simpa using hs
  have hnotifies := newWqe_notifies h hs i
  have hnumbered : (t.postWqe .put i op rest).numbered = t.numbered ++ [t.newWqe .put i op] := by
    rw [numbered_append (p := t.newWqe .put i op) rfl, himm]
    rfl
  have hsorted := hcons.sorted .put
  rw [liveIds, live_eq hp, List.map_append, List.map_cons, List.pairwise_append,
    List.pairwise_cons] at hsorted
  apply h.append hnumbered (if_pos ⟨rfl, hs⟩)
  · intro _
    rw [hnotifies]
    exact newWqe_imm h hs i
  · intro hfast
    cases hfast
  · have hissued : (t.postWqe .put i op rest).issued = t.issued := rfl
    rw [hissued, h.ids, hp, hnotifies, postWqe_ops_self, OpQueues.advance]
    have hadv : sequenced (t.cfg.advance op) = true := hs
    cases hfinal : t.cfg.isFinal op with
    | true =>
      rw [List.filter_cons_of_pos hs]
      simp [newWqe]
    | false =>
      rw [List.filter_cons_of_pos hs]
      simp only [Bool.false_eq_true, if_false, List.append_nil, List.filter_cons_of_pos hadv]
      rfl
  · intro p' hp'
    exact h.bound p' hp' op (by simp [hp])
  · intro op' hop'
    rw [postWqe_ops_self, OpQueues.advance] at hop'
    have hlater : op' ∈ rest → op.id < op'.id := fun hmem =>
      hsorted.2.1.1 _ (List.mem_map_of_mem hmem)
    cases hfinal : t.cfg.isFinal op with
    | true =>
      rw [hfinal, if_pos rfl] at hop'
      exact ⟨Nat.le_of_lt (hlater hop'), fun _ => hlater hop'⟩
    | false =>
      rw [hfinal, if_neg (by decide), List.mem_cons] at hop'
      rw [hnotifies, hfinal]
      refine ⟨?_, by simp⟩
      rcases hop' with rfl | hop'
      · exact Nat.le_refl _
      · exact Nat.le_of_lt (hlater hop')

theorem Numbered.pushed (hknown : t.Known) (kind : OpKind) (a : OpArgs)
    (lkeys : List ℕ) (hget : kind = .get → a.notify = false) : (t.pushed kind a lkeys).Numbered := by
  have hissued : (t.pushed kind a lkeys).issued =
      t.issued ++ [OpInfo.entry kind (t.newOp kind a lkeys)] := rfl
  cases kind with
  | get =>
    have hops : (t.pushed .get a lkeys).ops .put = t.ops .put :=
      pushed_ops_of_ne t a lkeys (by decide)
    refine h.of_same rfl rfl ?_ ?_ ?_
    · rw [hissued, List.filter_append]
      exact List.append_nil _
    · rw [hops]
    · rw [hops]
      exact fun op hop => ⟨op, hop, rfl⟩
  | put =>
    have hpend : ((t.pushed .put a lkeys).ops .put).pending =
        (t.ops .put).pending ++ [t.newOp .put a lkeys] := by
      rw [pushed_ops_self]
    have htag : Issued.withImm (OpInfo.entry .put (t.newOp .put a lkeys)) =
        sequenced (t.newOp .put a lkeys) := by
      rw [sequenced, Bool.and_comm]
      rfl
    exact {
      __ := h
      ids := by
        rw [hissued, hpend, List.filter_append, List.map_append, h.ids, List.filter_append,
          List.map_append, ← List.append_assoc]
        congr 1
        by_cases hs : sequenced (t.newOp .put a lkeys)
        · rw [List.filter_cons_of_pos hs, List.filter_cons_of_pos (htag.trans hs)]
          rfl
        · rw [List.filter_cons_of_neg hs, List.filter_cons_of_neg (by rwa [htag])]
          rfl
      bound := by
        intro p hp op hop
        rw [hpend, List.mem_append, List.mem_singleton] at hop
        rcases hop with hop | rfl
        · exact h.bound p hp op hop
        · have hput : p.kind = .put := by
            have himm := (List.mem_filter.mp hp).2
            rw [Posted.isImm, decide_eq_true_eq] at himm
            rw [Posted.kind, himm]
            rfl
          have hlt := hknown.posted p (List.mem_filter.mp hp).1
          rw [hput] at hlt
          exact ⟨Nat.le_of_lt hlt, fun _ => hlt⟩ }

theorem Numbered.fastPosted (hknown : t.Known) (hlive : t.live kind = [])
    (a : OpArgs) (lkeys : List ℕ) (hget : kind = .get → a.notify = false) :
    (t.fastPosted kind a lkeys).Numbered := by
  have hissued : (t.fastPosted kind a lkeys).issued = t.issued ++
      [⟨kind, t.opId_ kind, a.len, a.notify, t.cfg.getOpVcMode a.config, true⟩] := rfl
  have hposted : (t.fastPosted kind a lkeys).posted = t.posted ++ [t.newFast kind a lkeys] := rfl
  cases kind with
  | get =>
    have hops : (t.fastPosted .get a lkeys).ops .put = t.ops .put :=
      fastPosted_ops_of_ne t a lkeys (by decide)
    refine h.of_same ?_ rfl ?_ ?_ ?_
    · rw [numbered_append hposted]
      exact List.append_nil _
    · rw [hissued, List.filter_append]
      exact List.append_nil _
    · rw [hops]
    · rw [hops]
      exact fun op hop => ⟨op, hop, rfl⟩
  | put =>
    have hnil : ((t.fastPosted .put a lkeys).ops .put).pending = [] := by
      rw [fastPosted_ops_self]
      rw [live, List.append_eq_nil_iff] at hlive
      exact hlive.2
    have hpend : (t.ops .put).pending = [] := by
      rw [live, List.append_eq_nil_iff] at hlive
      exact hlive.2
    have hnotifies : (t.newFast .put a lkeys).notifies = a.notify := fastImm_notify a.notify
    have hids := h.ids
    rw [hpend] at hids
    refine h.append (p := t.newFast .put a lkeys) (numbered_append hposted) rfl ?_ ?_ ?_ ?_ ?_
    · intro hfast
      cases hfast
    · intro _
      rw [hnotifies]
      exact ⟨rfl, rfl⟩
    · rw [hissued, hnil, List.filter_append, List.map_append, hids, hnotifies]
      cases a.notify <;> simp [Issued.withImm, newFast]
    · intro p hp
      have hput : p.kind = .put := by
        have himm := (List.mem_filter.mp hp).2
        rw [Posted.isImm, decide_eq_true_eq] at himm
        rw [Posted.kind, himm]
        rfl
      have hlt := hknown.posted p (List.mem_filter.mp hp).1
      rw [hput] at hlt
      exact ⟨Nat.le_of_lt hlt, fun _ => hlt⟩
    · rw [hnil]
      intro op hop
      cases hop

theorem Numbered.retireWqe (p : Posted) : (t.retireWqe p).Numbered := by
  have hretire : ∀ op : OpInfo, sequenced (op.retire p.id) = sequenced op := by
    intro op
    unfold OpInfo.retire
    split <;> rfl
  by_cases hk : OpKind.put = p.kind
  · have hpend : ((t.retireWqe p).ops .put).pending =
        (t.ops .put).pending.map (OpInfo.retire p.id) := by
      rw [hk, retireWqe_ops_self]
    refine h.of_same rfl rfl rfl ?_ ?_
    · rw [hpend, List.filter_map, List.map_map]
      have hcomp : sequenced ∘ OpInfo.retire p.id = sequenced := funext hretire
      rw [hcomp]
      exact List.map_congr_left fun op _ => OpInfo.id_retire ..
    · rw [hpend]
      intro op hop
      rcases List.mem_map.mp hop with ⟨op', hop', rfl⟩
      exact ⟨op', hop', (OpInfo.id_retire ..).symm⟩
  · refine h.of_same rfl rfl rfl ?_ ?_
    · rw [retireWqe_ops_of_ne t p hk]
    · rw [retireWqe_ops_of_ne t p hk]
      exact fun op hop => ⟨op, hop, rfl⟩

theorem Numbered.of_sameData (hsame : SameData t t') : t'.Numbered := by
  apply h.of_same _ hsame.sndNxt
  · rw [hsame.issued]
  · rw [hsame.ops]
  · rw [hsame.ops]
    exact fun op hop => ⟨op, hop, rfl⟩
  · rw [numbered, numbered, hsame.posted]

end

theorem numbered_change (hchange : Change t t') : ∃ more, t'.numbered = t.numbered ++ more := by
  have hsame : SameData t t' → ∃ more, t'.numbered = t.numbered ++ more := fun hsame =>
    ⟨[], by rw [numbered, hsame.posted, List.append_nil, numbered]⟩
  have hnone : t'.numbered = t.numbered → ∃ more, t'.numbered = t.numbered ++ more := fun heq =>
    ⟨[], by rw [heq, List.append_nil]⟩
  cases hchange with
  | posting _ kind hpost =>
    cases hpost with
    | robin i hi => exact hnone rfl
    | wqe i op rest hi hp => exact ⟨_, numbered_append (p := t.newWqe kind i op) rfl⟩
  | burning _ kind hburn =>
    cases hburn with
    | one op rest => exact hnone (congrArg (List.filter Posted.isImm) (sameData_finishOp t kind op).posted)
  | bump kind => exact hnone rfl
  | push kind a lkeys hget => exact hnone rfl
  | fast kind a lkeys hget hvalid => exact ⟨_, numbered_append (p := t.newFast kind a lkeys) rfl⟩
  | wqe p hp hfast => exact hnone rfl
  | fastDone p f fs hp hfast hf => exact hnone rfl
  | notify req => exact hsame (sameData_notify t req)
  | noticed n ns hout => exact hsame (sameData_noticed t n ns)

theorem Numbered.change (h : t.Numbered) (hsound : t.Sound) (hknown : t.Known)
    (hchange : Change t t') : t'.Numbered := by
  have hpend : (t'.ops .put).pending = (t.ops .put).pending → t'.numbered = t.numbered →
      t'.sndNxt_ = t.sndNxt_ → t'.issued = t.issued → t'.Numbered := by
    intro hpend hnumbered hnext hissued
    apply h.of_same hnumbered hnext
    · rw [hissued]
    · rw [hpend]
    · rw [hpend]
      exact fun op hop => ⟨op, hop, rfl⟩
  cases hchange with
  | posting _ kind hpost =>
    cases hpost with
    | robin i hi => exact hpend rfl rfl rfl rfl
    | wqe i op rest hi hp =>
      by_cases hs : kind = .put ∧ sequenced op
      · rcases hs with ⟨rfl, hs⟩
        exact h.postWqe_seq hsound.toConsistent hp i hs
      · exact h.postWqe_plain hp i hs
  | burning _ kind hburn =>
    cases hburn with
    | one op rest =>
      have hsame := sameData_finishOp t kind op
      apply hpend
      · by_cases hk : OpKind.put = kind
        · subst hk
          rw [burnOne_ops_self]
        · rw [burnOne_ops_of_ne t op rest hk]
      · rw [numbered, numbered]
        exact congrArg _ hsame.posted
      · exact hsame.sndNxt
      · exact hsame.issued
  | bump kind => exact hpend rfl rfl rfl rfl
  | push kind a lkeys hget => exact h.pushed hknown kind a lkeys hget
  | fast kind a lkeys hget hvalid =>
    exact h.fastPosted hknown (live_of_isFastValid hvalid) a lkeys hget
  | wqe p hp hfast => exact h.retireWqe p
  | fastDone p f fs hp hfast hf => exact hpend (retireFast_queues t p f fs .put).1 rfl rfl rfl
  | notify req => exact h.of_sameData (sameData_notify t req)
  | noticed n ns hout =>
    exact h.of_sameData (sameData_noticed t n ns)

end CtranIbVirtualConn
end TorchComms.CtranIb
