import TorchComms.CtranIb.QpBudget
import TorchComms.Foundation.Cutting

/-! # A regular operation is cut into chunks that cover its buffer once

The work requests of an operation lie one behind the other, and the operation leaves the pending
queue with its last one. The chunks are cut from the front operation only, so that they go out in
the order of issue, whoever asks for the next one.
-/
namespace TorchComms.CtranIb

/-- The buffer of an operation on this side, and on the other. -/
def OpInfo.localBuf (kind : OpKind) (op : OpInfo) : ℕ :=
  match kind with
  | .put => op.sbuf
  | .get => op.dbuf

def OpInfo.remoteBuf (kind : OpKind) (op : OpInfo) : ℕ :=
  match kind with
  | .put => op.dbuf
  | .get => op.sbuf

/-- The operation as it was issued, whatever was posted and completed of it. -/
def OpInfo.issued (op : OpInfo) : OpInfo := { op with offset := 0, outstandingWqes := 0 }

/-- The operation but for what has completed of it. -/
def OpInfo.cut (op : OpInfo) : OpInfo := { op with outstandingWqes := 0 }

def Posted.notified (p : Posted) : Bool := p.wr.immData.testBit kNotifyBit

namespace CtranIbVirtualConn

open Foundation Relation

variable {t t' u : CtranIbVirtualConn} {kind k : OpKind} {op o : OpInfo} {rest : List OpInfo}
  {c : VcConfig} {i : ℕ}

/-! ### Calls -/

/-- Besides the calls and completions, the two functions that post may be called at any time. -/
inductive PostCall where
  | call (op : BatchOp)
  | queueOnQp (kind : OpKind) (i : ℕ)
  | tryToPostOp (kind : OpKind)
deriving DecidableEq, Repr

def postStep (t : CtranIbVirtualConn) : PostCall → Except VcFault CtranIbVirtualConn
  | .call op => t.batchStep op
  | .queueOnQp kind i => t.queueOnQp kind i
  | .tryToPostOp kind => t.tryToPostOp kind

/-! ### Chunks -/

/-- The work requests of an operation, in the order in which they were posted. -/
def chunks (t : CtranIbVirtualConn) (kind : OpKind) (id : ℕ) : List Posted :=
  t.posted.filter (Posted.isOf kind id)

/-- The numbers of the operations of a kind, one for each of their work requests. -/
def chunkIds (t : CtranIbVirtualConn) (kind : OpKind) : List ℕ :=
  (t.posted.filter fun p => !p.fast && p.kind = kind).map (·.id)

/-- The buffer of an operation is cut from its start up to the offset `e`. -/
structure CutTo (c : VcConfig) (kind : OpKind) (o : OpInfo) (ps : List Posted) (e : ℕ) : Prop where
  ranges : ∃ rs, ps.map (fun p => (p.wr.addr, p.wr.remoteAddr, p.wr.length)) =
      rs.map (fun r => (o.localBuf kind + r.1, o.remoteBuf kind + r.1, r.2)) ∧
    Adjoin (c.maxWqeSize o) 0 rs e
  few : ps.length ≤ e ∨ o.len = 0 ∧ ps.length ≤ 1
  earlier : ∀ p ∈ ps.dropLast, p.notified = false
  last : ∀ p ∈ ps.getLast?, p.notified =
    (decide (e = o.len) && (decide (kind = .put) && sequenced o))

theorem cutTo_nil (c : VcConfig) (kind : OpKind) (o : OpInfo) : CutTo c kind o [] 0 where
  ranges := ⟨[], rfl, rfl⟩
  few := Or.inl (Nat.le_refl 0)
  earlier _ h := nomatch h
  last _ h := nomatch h

theorem testBit_of_le {n : ℕ} (h : n ≤ kSeqNumMask) : n.testBit kNotifyBit = false := by
  apply Nat.testBit_lt_two_pow
  exact Nat.lt_of_le_of_lt h (by decide)

theorem newWqe_notified (hsnd : t.sndNxt_ ≤ kSeqNumMask) (kind : OpKind) (i : ℕ) (op : OpInfo) :
    (t.newWqe kind i op).notified =
      (t.cfg.isFinal op && (decide (kind = .put) && sequenced op)) := by
  have hzero : Nat.testBit 0 kNotifyBit = false := Nat.zero_testBit _
  have hbit : (1 <<< kNotifyBit).testBit kNotifyBit = true := by decide
  cases kind with
  | get =>
    rw [decide_eq_false (by decide), Bool.false_and, Bool.and_false]
    exact hzero
  | put =>
    rw [decide_eq_true rfl, Bool.true_and]
    change Nat.testBit (if sequenced op then if t.cfg.isFinal op then _ else _ else 0) kNotifyBit = _
    cases sequenced op with
    | false =>
      rw [Bool.and_false]
      exact hzero
    | true =>
      cases t.cfg.isFinal op with
      | false => exact testBit_of_le hsnd
      | true => simp only [if_true, Nat.testBit_or, hbit, Bool.or_true, Bool.and_self]

theorem isFinal_iff (hle : op.offset ≤ op.len) :
    t.cfg.isFinal op ↔ op.offset + t.cfg.toSend op = op.len := by
  have hmin : t.cfg.toSend op ≤ op.len - op.offset := Nat.min_le_left ..
  rw [VcConfig.isFinal, decide_eq_true_eq]
  omega

theorem maxWqeSize_pos (c : VcConfig) (op : OpInfo) : 0 < c.maxWqeSize op :=
  Nat.lt_min.mpr ⟨c.maxMsgSize_pos, Nat.lt_of_lt_of_le c.mtu_pos (Nat.le_max_right ..)⟩

theorem toSend_pos (hlt : op.offset < op.len) : 0 < t.cfg.toSend op :=
  Nat.lt_min.mpr ⟨Nat.sub_pos_of_lt hlt, maxWqeSize_pos _ _⟩

theorem newWqe_range (t : CtranIbVirtualConn) (kind : OpKind) (i : ℕ) (op : OpInfo) :
    (t.newWqe kind i op).wr.addr = op.issued.localBuf kind + op.offset ∧
      (t.newWqe kind i op).wr.remoteAddr = op.issued.remoteBuf kind + op.offset ∧
      (t.newWqe kind i op).wr.length = t.cfg.toSend op := by
  cases kind <;> exact ⟨rfl, rfl, rfl⟩

variable {ps : List Posted}

theorem CutTo.concat (h : CutTo t.cfg kind op.issued ps op.offset)
    (hsnd : t.sndNxt_ ≤ kSeqNumMask) (hle : op.offset ≤ op.len)
    (hmore : op.offset < op.len ∨ ps = []) (i : ℕ) :
    CutTo t.cfg kind op.issued (ps ++ [t.newWqe kind i op]) (op.offset + t.cfg.toSend op) := by
  rcases newWqe_range t kind i op with ⟨haddr, hremote, hlength⟩
  have hnone : ∀ p ∈ ps, p.notified = false := by
    rcases hmore with hlt | rfl
    · intro p hp
      rcases List.eq_nil_or_concat ps with rfl | ⟨qs, q, rfl⟩
      · cases hp
      · rw [List.concat_eq_append] at h hp
        rcases List.mem_append.mp hp with hp | hp
        · exact h.earlier p (by rwa [List.dropLast_concat])
        · have hshort : op.offset ≠ op.issued.len := Nat.ne_of_lt hlt
          rw [List.mem_singleton.mp hp, h.last q (by simp), decide_eq_false hshort, Bool.false_and]
    · intro p hp
      cases hp
  constructor
  · rcases h.ranges with ⟨rs, hmap, hadjoin⟩
    refine ⟨rs ++ [(op.offset, t.cfg.toSend op)], ?_, hadjoin.concat (Nat.min_le_right ..)⟩
    rw [List.map_append, List.map_append, hmap, List.map_singleton, List.map_singleton, haddr,
      hremote, hlength]
  · rw [List.length_append, List.length_singleton]
    rcases hmore with hlt | rfl
    · have hpos := toSend_pos (t := t) hlt
      rcases h.few with hfew | ⟨hzero, -⟩
      · exact Or.inl (by omega)
      · change op.len = 0 at hzero
        omega
    · rcases Nat.eq_zero_or_pos op.len with hzero | hpos
      · exact Or.inr ⟨hzero, Nat.le_refl 1⟩
      · rcases h.ranges with ⟨rs, hmap, hadjoin⟩
        rw [List.map_nil, eq_comm, List.map_eq_nil_iff] at hmap
        subst hmap
        have hstart : 0 = op.offset := hadjoin
        have hlt : op.offset < op.len := by omega
        have hsend := toSend_pos (t := t) hlt
        exact Or.inl (by rw [List.length_nil]; omega)
  · rw [List.dropLast_concat]
    exact hnone
  · intro p hp
    rw [List.getLast?_concat, Option.mem_some_iff] at hp
    rw [← hp, newWqe_notified hsnd]
    congr 1
    rw [Bool.eq_iff_iff, isFinal_iff hle, decide_eq_true_eq]
    exact Iff.rfl

/-! ### Changes -/

/-- A change that posts no regular work request and adds no regular operation. -/
structure Frame (t t' : CtranIbVirtualConn) : Prop where
  cfg : t'.cfg = t.cfg
  robin : t.qpIdxRR_ < t.cfg.maxNumQps_ → t'.qpIdxRR_ < t'.cfg.maxNumQps_
  sndNxt : t.sndNxt_ ≤ kSeqNumMask → t'.sndNxt_ ≤ kSeqNumMask
  opId : ∀ k, t.opId_ k ≤ t'.opId_ k
  posted : ∃ ps, t'.posted = t.posted ++ ps ∧ ∀ p ∈ ps, p.fast = true
  pending : ∀ k, (t'.ops k).pending.map OpInfo.cut = (t.ops k).pending.map OpInfo.cut
  outstanding : ∀ k, (t'.ops k).outstanding.map (·.id) ⊆ (t.ops k).outstanding.map (·.id)

theorem frame_refl (t : CtranIbVirtualConn) : Frame t t where
  cfg := rfl
  robin := id
  sndNxt := id
  opId _ := Nat.le_refl _
  posted := ⟨[], (List.append_nil _).symm, fun _ hp => nomatch hp⟩
  pending _ := rfl
  outstanding _ := List.Subset.refl _

theorem Frame.trans (h : Frame t u) (h' : Frame u t') : Frame t t' where
  cfg := h'.cfg.trans h.cfg
  robin := h'.robin ∘ h.robin
  sndNxt := h'.sndNxt ∘ h.sndNxt
  opId k := Nat.le_trans (h.opId k) (h'.opId k)
  posted := by
    rcases h.posted with ⟨ps, hps, hfast⟩
    rcases h'.posted with ⟨qs, hqs, hfast'⟩
    refine ⟨ps ++ qs, by rw [hqs, hps, List.append_assoc], fun p hp => ?_⟩
    exact (List.mem_append.mp hp).elim (hfast p) (hfast' p)
  pending k := (h'.pending k).trans (h.pending k)
  outstanding k := List.Subset.trans (h'.outstanding k) (h.outstanding k)

theorem frame_sameData (h : SameData t t') : Frame t t' where
  cfg := h.cfg
  robin hlt := by rwa [h.robin, h.cfg]
  sndNxt hle := by rwa [h.sndNxt]
  opId k := by rw [h.opId]
  posted := ⟨[], by rw [h.posted, List.append_nil], fun _ hp => nomatch hp⟩
  pending k := by rw [h.ops]
  outstanding k := by rw [h.ops]; exact List.Subset.refl _

theorem frame_setOps (t : CtranIbVirtualConn) (kind : OpKind) {f : OpQueues → OpQueues}
    (hpending : (f (t.ops kind)).pending.map OpInfo.cut = (t.ops kind).pending.map OpInfo.cut)
    (hout : (f (t.ops kind)).outstanding.map (·.id) ⊆ (t.ops kind).outstanding.map (·.id)) :
    Frame t (t.setOps kind f) where
  cfg := rfl
  robin := id
  sndNxt := id
  opId _ := Nat.le_refl _
  posted := ⟨[], (List.append_nil _).symm, fun _ hp => nomatch hp⟩
  pending k := by
    by_cases hk : k = kind
    · subst hk
      rw [ops_setOps_self, hpending]
    · rw [ops_setOps_of_ne t f hk]
  outstanding k := by
    by_cases hk : k = kind
    · subst hk
      rw [ops_setOps_self]
      exact hout
    · rw [ops_setOps_of_ne t f hk]
      exact List.Subset.refl _

inductive Tick : CtranIbVirtualConn → CtranIbVirtualConn → Prop where
  | frame (t t' : CtranIbVirtualConn) (h : Frame t t') : Tick t t'
  | wqe (t : CtranIbVirtualConn) (kind : OpKind) (i : ℕ) (op : OpInfo) (rest : List OpInfo)
      (hp : (t.ops kind).pending = op :: rest) : Tick t (t.postWqe kind i op rest)
  | push (t : CtranIbVirtualConn) (kind : OpKind) (a : OpArgs) (lkeys : List ℕ) :
      Tick t (t.pushed kind a lkeys)

/-! ### The order of issue -/

/-- What is posted and what is pending follow each other in the order of the numbers. -/
structure Lined (t : CtranIbVirtualConn) : Prop where
  ready : t.Ready
  sndNxt : t.sndNxt_ ≤ kSeqNumMask
  posted : ∀ k, (t.chunkIds k).Pairwise (· ≤ ·)
  pending : ∀ k, (t.ops k).pending.Pairwise fun op op' => op.id < op'.id
  behind : ∀ k, ∀ op ∈ (t.ops k).pending, ∀ x ∈ t.chunkIds k, x ≤ op.id
  done : ∀ k, ∀ op ∈ (t.ops k).pending, ∀ x ∈ (t.ops k).outstanding.map (·.id), x < op.id
  fresh : ∀ k, ∀ op ∈ (t.ops k).pending, op.id < t.opId_ k
  known : ∀ k, ∀ x ∈ t.chunkIds k, x < t.opId_ k
  out : ∀ k, ∀ x ∈ (t.ops k).outstanding.map (·.id), x < t.opId_ k

theorem lined_init (cfg : VcConfig) : Lined { cfg := cfg } where
  ready := ⟨cfg.maxNumQps_pos, fun _ _ h => nomatch h⟩
  sndNxt := Nat.zero_le _
  posted _ := List.Pairwise.nil
  pending _ := List.Pairwise.nil
  behind _ _ h := nomatch h
  done _ _ h := nomatch h
  fresh _ _ h := nomatch h
  known _ _ h := nomatch h
  out _ _ h := nomatch h

theorem filter_fast (h : ∀ p ∈ ps, p.fast = true) (q : Posted → Bool) :
    ps.filter (fun p => !p.fast && q p) = [] := by
  rw [List.filter_eq_nil_iff]
  intro p hp
  rw [h p hp, Bool.not_true, Bool.false_and]
  exact Bool.false_ne_true

theorem Frame.chunkIds (h : Frame t t') (k : OpKind) : t'.chunkIds k = t.chunkIds k := by
  rcases h.posted with ⟨ps, hps, hfast⟩
  rw [CtranIbVirtualConn.chunkIds, hps, List.filter_append, filter_fast hfast, List.append_nil]
  rfl

theorem Frame.chunks (h : Frame t t') (k : OpKind) (id : ℕ) : t'.chunks k id = t.chunks k id := by
  rcases h.posted with ⟨ps, hps, hfast⟩
  have hnone : ps.filter (Posted.isOf k id) = [] := filter_fast hfast _
  rw [CtranIbVirtualConn.chunks, hps, List.filter_append, hnone, List.append_nil]
  rfl

/-- The pending operations before and after a frame, but for what has completed of them. -/
theorem Frame.pending_mem (h : Frame t t') (hop : op ∈ (t'.ops k).pending) :
    ∃ op' ∈ (t.ops k).pending, op'.cut = op.cut := by
  have hmem := List.mem_map_of_mem (f := OpInfo.cut) hop
  rw [h.pending] at hmem
  exact List.mem_map.mp hmem

theorem Frame.mem_pending (h : Frame t t') (hop : op ∈ (t.ops k).pending) :
    ∃ op' ∈ (t'.ops k).pending, op'.cut = op.cut := by
  have hmem := List.mem_map_of_mem (f := OpInfo.cut) hop
  rw [← h.pending] at hmem
  exact List.mem_map.mp hmem

theorem id_eq_of_cut {op op' : OpInfo} (h : op.cut = op'.cut) : op.id = op'.id := by
  have hid := congrArg OpInfo.id h
  exact hid

theorem offset_eq_of_cut {op op' : OpInfo} (h : op.cut = op'.cut) : op.offset = op'.offset := by
  have hoffset := congrArg OpInfo.offset h
  exact hoffset

theorem issued_eq_of_cut {op op' : OpInfo} (h : op.cut = op'.cut) : op.issued = op'.issued := by
  have hissued := congrArg OpInfo.issued h
  exact hissued

theorem Lined.frame (h : t.Lined) (hframe : Frame t t') : t'.Lined where
  ready := by
    refine ⟨hframe.robin h.ready.robin, fun k op hop => ?_⟩
    rcases hframe.pending_mem hop with ⟨op', hop', hcut⟩
    have hwithin := h.ready.within k op' hop'
    have hlen : op'.issued.len = op.issued.len := by rw [issued_eq_of_cut hcut]
    change op'.offset ≤ op'.issued.len at hwithin
    rwa [offset_eq_of_cut hcut, hlen] at hwithin
  sndNxt := hframe.sndNxt h.sndNxt
  posted k := by
    rw [hframe.chunkIds]
    exact h.posted k
  pending k := by
    have hids : (t'.ops k).pending.map (·.id) = (t.ops k).pending.map (·.id) := by
      have hmap := congrArg (List.map OpInfo.id) (hframe.pending k)
      rwa [List.map_map, List.map_map] at hmap
    have hpairs := List.pairwise_map.mpr (h.pending k)
    rw [← hids] at hpairs
    exact List.pairwise_map.mp hpairs
  behind k op hop x hx := by
    rcases hframe.pending_mem hop with ⟨op', hop', hcut⟩
    rw [hframe.chunkIds] at hx
    rw [← id_eq_of_cut hcut]
    exact h.behind k op' hop' x hx
  done k op hop x hx := by
    rcases hframe.pending_mem hop with ⟨op', hop', hcut⟩
    rw [← id_eq_of_cut hcut]
    exact h.done k op' hop' x (hframe.outstanding k hx)
  fresh k op hop := by
    rcases hframe.pending_mem hop with ⟨op', hop', hcut⟩
    rw [← id_eq_of_cut hcut]
    exact Nat.lt_of_lt_of_le (h.fresh k op' hop') (hframe.opId k)
  known k x hx := by
    rw [hframe.chunkIds] at hx
    exact Nat.lt_of_lt_of_le (h.known k x hx) (hframe.opId k)
  out k x hx := Nat.lt_of_lt_of_le (h.out k x (hframe.outstanding k hx)) (hframe.opId k)

theorem chunkIds_postWqe (t : CtranIbVirtualConn) (kind : OpKind) (i : ℕ) (op : OpInfo)
    (rest : List OpInfo) (k : OpKind) : (t.postWqe kind i op rest).chunkIds k =
      t.chunkIds k ++ if k = kind then [op.id] else [] := by
  rw [chunkIds, chunkIds]
  change List.map _ (List.filter _ (t.posted ++ [t.newWqe kind i op])) = _
  rw [List.filter_append, List.map_append]
  congr 1
  rw [List.filter_singleton, newWqe_kind]
  by_cases hk : k = kind
  · rw [if_pos hk, hk, decide_eq_true rfl]
    rfl
  · rw [if_neg hk, decide_eq_false (Ne.symm hk), Bool.and_false]
    rfl

theorem chunks_postWqe (t : CtranIbVirtualConn) (kind : OpKind) (i : ℕ) (op : OpInfo)
    (rest : List OpInfo) (k : OpKind) (id : ℕ) : (t.postWqe kind i op rest).chunks k id =
      t.chunks k id ++ if k = kind ∧ op.id = id then [t.newWqe kind i op] else [] := by
  rw [chunks, chunks]
  change List.filter _ (t.posted ++ [t.newWqe kind i op]) = _
  rw [List.filter_append]
  congr 1
  by_cases hof : k = kind ∧ op.id = id
  · rw [if_pos hof, List.filter_cons_of_pos]
    · rfl
    · exact Posted.isOf_iff.mpr ⟨rfl, (newWqe_kind ..).trans hof.1.symm, hof.2⟩
  · rw [if_neg hof, List.filter_cons_of_neg]
    · rfl
    · intro hcontra
      rcases Posted.isOf_iff.mp hcontra with ⟨-, hkind, hid⟩
      exact hof ⟨hkind.symm.trans (newWqe_kind ..), hid⟩

theorem ids_postWqe (hp : (t.ops kind).pending = op :: rest) (i : ℕ) :
    (∀ k, ∀ op' ∈ ((t.postWqe kind i op rest).ops k).pending,
        op' ∈ (t.ops k).pending ∨ k = kind ∧ t.cfg.isFinal op = false ∧ op' = t.cfg.advance op) ∧
      ∀ k, ((t.postWqe kind i op rest).ops k).outstanding.map (·.id) =
        (t.ops k).outstanding.map (·.id) ++ if k = kind ∧ t.cfg.isFinal op then [op.id] else [] := by
  constructor
  · intro k op' hop'
    by_cases hk : k = kind
    · subst hk
      rw [postWqe_ops_self, OpQueues.advance] at hop'
      split at hop'
      · exact Or.inl (by rw [hp]; exact List.mem_cons_of_mem _ hop')
      · rename_i hfinal
        rcases List.mem_cons.mp hop' with rfl | hop'
        · exact Or.inr ⟨rfl, Bool.eq_false_of_not_eq_true hfinal, rfl⟩
        · exact Or.inl (by rw [hp]; exact List.mem_cons_of_mem _ hop')
    · rw [postWqe_ops_of_ne hk] at hop'
      exact Or.inl hop'
  · intro k
    by_cases hk : k = kind
    · subst hk
      rw [postWqe_ops_self, OpQueues.advance]
      split
      · rw [List.map_append, if_pos ⟨rfl, ‹_›⟩]
        rfl
      · rw [if_neg (fun hboth => absurd hboth.2 ‹_›), List.append_nil]
    · rw [postWqe_ops_of_ne hk, if_neg (fun hboth => hk hboth.1), List.append_nil]

theorem postWqe_sndNxt (h : t.sndNxt_ ≤ kSeqNumMask) (kind : OpKind) (i : ℕ) (op : OpInfo)
    (rest : List OpInfo) : (t.postWqe kind i op rest).sndNxt_ ≤ kSeqNumMask := by
  change (if kind = .put ∧ sequenced op then _ else _) ≤ _
  split
  · exact Nat.and_le_right
  · exact h

theorem Lined.postWqe (h : t.Lined) (hp : (t.ops kind).pending = op :: rest) (i : ℕ) :
    (t.postWqe kind i op rest).Lined := by
  rcases ids_postWqe hp i with ⟨hpending, hout⟩
  have hop : op ∈ (t.ops kind).pending := by simp [hp]
  have hsorted := h.pending kind
  rw [hp, List.pairwise_cons] at hsorted
  -- an operation that is pending now was so before, with the same number
  have hold : ∀ k, ∀ op' ∈ ((t.postWqe kind i op rest).ops k).pending,
      ∃ op'' ∈ (t.ops k).pending, op''.id = op'.id := by
    intro k op' hop'
    rcases hpending k op' hop' with hmem | ⟨rfl, -, rfl⟩
    · exact ⟨op', hmem, rfl⟩
    · exact ⟨op, hop, rfl⟩
  have hfront : ∀ op' ∈ ((t.postWqe kind i op rest).ops kind).pending, op.id ≤ op'.id := by
    intro op' hop'
    rcases hpending kind op' hop' with hmem | ⟨-, -, rfl⟩
    · rw [hp] at hmem
      rcases List.mem_cons.mp hmem with rfl | hmem
      · exact Nat.le_refl _
      · exact Nat.le_of_lt (hsorted.1 op' hmem)
    · exact Nat.le_refl _
  constructor
  · exact ⟨h.ready.robin, within_postWqe h.ready.within hp i⟩
  · exact postWqe_sndNxt h.sndNxt kind i op rest
  · intro k
    rw [chunkIds_postWqe, List.pairwise_append]
    refine ⟨h.posted k, ?_, fun x hx y hy => ?_⟩
    · split <;> simp
    · split at hy
      · rename_i hk
        subst hk
        rw [List.mem_singleton.mp hy]
        exact h.behind k op hop x hx
      · cases hy
  · intro k
    by_cases hk : k = kind
    · subst hk
      rw [postWqe_ops_self, OpQueues.advance]
      split
      · exact hsorted.2
      · exact List.pairwise_cons.mpr hsorted
    · rw [postWqe_ops_of_ne hk]
      exact h.pending k
  · intro k op' hop' x hx
    rw [chunkIds_postWqe, List.mem_append] at hx
    rcases hx with hx | hx
    · rcases hold k op' hop' with ⟨op'', hop'', hid⟩
      rw [← hid]
      exact h.behind k op'' hop'' x hx
    · split at hx
      · rename_i hk
        subst hk
        rw [List.mem_singleton.mp hx]
        exact hfront op' hop'
      · cases hx
  · intro k op' hop' x hx
    rw [hout, List.mem_append] at hx
    rcases hx with hx | hx
    · rcases hold k op' hop' with ⟨op'', hop'', hid⟩
      rw [← hid]
      exact h.done k op'' hop'' x hx
    · split at hx
      · rename_i hboth
        rcases hboth with ⟨rfl, hfinal⟩
        rw [List.mem_singleton.mp hx]
        rw [postWqe_ops_self, OpQueues.advance, if_pos hfinal] at hop'
        exact hsorted.1 op' hop'
      · cases hx
  · intro k op' hop'
    rcases hold k op' hop' with ⟨op'', hop'', hid⟩
    rw [← hid]
    exact h.fresh k op'' hop''
  · intro k x hx
    rw [chunkIds_postWqe, List.mem_append] at hx
    rcases hx with hx | hx
    · exact h.known k x hx
    · split at hx
      · rename_i hk
        subst hk
        rw [List.mem_singleton.mp hx]
        exact h.fresh k op hop
      · cases hx
  · intro k x hx
    rw [hout, List.mem_append] at hx
    rcases hx with hx | hx
    · exact h.out k x hx
    · split at hx
      · rename_i hboth
        rcases hboth with ⟨rfl, -⟩
        rw [List.mem_singleton.mp hx]
        exact h.fresh k op hop
      · cases hx

theorem pending_pushed (t : CtranIbVirtualConn) (kind : OpKind) (a : OpArgs) (lkeys : List ℕ)
    (k : OpKind) : ((t.pushed kind a lkeys).ops k).pending =
      (t.ops k).pending ++ if k = kind then [t.newOp kind a lkeys] else [] := by
  by_cases hk : k = kind
  · subst hk
    rw [pushed_ops_self, if_pos rfl]
  · rw [pushed_ops_of_ne t a lkeys hk, if_neg hk, List.append_nil]

theorem outstanding_pushed (t : CtranIbVirtualConn) (kind : OpKind) (a : OpArgs) (lkeys : List ℕ)
    (k : OpKind) : ((t.pushed kind a lkeys).ops k).outstanding = (t.ops k).outstanding := by
  by_cases hk : k = kind
  · subst hk
    rw [pushed_ops_self]
  · rw [pushed_ops_of_ne t a lkeys hk]

theorem Lined.pushed (h : t.Lined) (kind : OpKind) (a : OpArgs) (lkeys : List ℕ) :
    (t.pushed kind a lkeys).Lined := by
  have hmem : ∀ k, ∀ op ∈ ((t.pushed kind a lkeys).ops k).pending,
      op ∈ (t.ops k).pending ∨ k = kind ∧ op = t.newOp kind a lkeys := by
    intro k op hop
    rw [pending_pushed, List.mem_append] at hop
    rcases hop with hop | hop
    · exact Or.inl hop
    · split at hop
      · exact Or.inr ⟨‹_›, List.mem_singleton.mp hop⟩
      · cases hop
  have hnext : ∀ k, t.opId_ k ≤ (t.pushed kind a lkeys).opId_ k := le_bump t kind
  constructor
  · refine ⟨h.ready.robin, fun k op hop => ?_⟩
    rcases hmem k op hop with hop | ⟨-, rfl⟩
    · exact h.ready.within k op hop
    · exact Nat.zero_le _
  · exact h.sndNxt
  · exact h.posted
  · intro k
    rw [pending_pushed, List.pairwise_append]
    refine ⟨h.pending k, ?_, fun op hop op' hop' => ?_⟩
    · split <;> simp
    · split at hop'
      · rename_i hk
        subst hk
        rw [List.mem_singleton.mp hop']
        exact h.fresh k op hop
      · cases hop'
  · intro k op hop x hx
    rcases hmem k op hop with hop | ⟨rfl, rfl⟩
    · exact h.behind k op hop x hx
    · exact Nat.le_of_lt (h.known k x hx)
  · intro k op hop x hx
    rw [outstanding_pushed] at hx
    rcases hmem k op hop with hop | ⟨rfl, rfl⟩
    · exact h.done k op hop x hx
    · exact h.out k x hx
  · intro k op hop
    rcases hmem k op hop with hop | ⟨rfl, rfl⟩
    · exact Nat.lt_of_lt_of_le (h.fresh k op hop) (hnext k)
    · change t.opId_ k < Function.update t.opId_ k (t.opId_ k + 1) k
      rw [Function.update_self]
      exact Nat.lt_succ_self _
  · exact fun k x hx => Nat.lt_of_lt_of_le (h.known k x hx) (hnext k)
  · intro k x hx
    rw [outstanding_pushed] at hx
    exact Nat.lt_of_lt_of_le (h.out k x hx) (hnext k)

theorem Lined.tick (h : t.Lined) (htick : Tick t t') : t'.Lined := by
  cases htick with
  | frame _ hframe => exact h.frame hframe
  | wqe kind i op rest hp => exact h.postWqe hp i
  | push kind a lkeys => exact h.pushed kind a lkeys

theorem Lined.ticks (h : t.Lined) (hticks : ReflTransGen Tick t t') : t'.Lined := by
  induction hticks with
  | refl => exact h
  | tail _ hlast ih => exact ih.tick hlast

/-! ### Every call is a chain of changes -/

theorem ticks_of_postings (h : ReflTransGen (Posting kind) t t') : ReflTransGen Tick t t' := by
  refine ReflTransGen.mono (fun u v huv => ?_) _ _ h
  cases huv with
  | robin i hi =>
    exact .frame _ _ { frame_refl u with robin := fun _ => hi }
  | wqe i op rest hi hp => exact .wqe u kind i op rest hp

/-- A call that succeeds is a chain of changes, and no call throws or goes round for ever. -/
structure Proper (t : CtranIbVirtualConn) (r : Except VcFault CtranIbVirtualConn) : Prop where
  ticks : ∀ t', r = .ok t' → ReflTransGen Tick t t'
  noThrow : r ≠ .error .lengthMismatch
  ends : r ≠ .error .diverged

variable {r : Except VcFault CtranIbVirtualConn}

theorem proper_ok (h : ReflTransGen Tick t u) : Proper t (.ok u) where
  ticks t' ht' := by
    cases ht'
    exact h
  noThrow h := nomatch h
  ends h := nomatch h

theorem proper_error {e : VcFault} (hthrow : e ≠ .lengthMismatch) (hends : e ≠ .diverged) :
    Proper t (.error e) where
  ticks _ h := nomatch h
  noThrow h := hthrow (Except.error.inj h)
  ends h := hends (Except.error.inj h)

theorem Proper.after (h : Proper u r) (hticks : ReflTransGen Tick t u) : Proper t r where
  ticks t' ht' := hticks.trans (h.ticks t' ht')
  __ := h

theorem Ready.proper_queueOnQp (h : t.Ready) (kind : OpKind) (i : ℕ) :
    Proper t (t.queueOnQp kind i) := by
  cases hp : (t.ops kind).pending with
  | nil =>
    rw [queueOnQp_nil hp]
    exact proper_ok .refl
  | cons op rest =>
    rw [queueOnQp_cons h hp]
    exact proper_ok (.single (.wqe t kind i op rest hp))

theorem Ready.proper_tryToPostOp (h : t.Ready) (kind : OpKind) : Proper t (t.tryToPostOp kind) := by
  rcases tryToPostOp_spec h kind with ⟨t', hrun, hchain, -⟩
  rw [hrun]
  exact proper_ok (ticks_of_postings hchain)

theorem Lined.proper_issue (h : t.Lined) (kind : OpKind) (a : OpArgs) (fast : Bool) :
    Proper t ((t.issue kind a fast).map Prod.snd) := by
  cases hreg : a.ibRegElem with
  | none =>
    simp only [issue, hreg]
    exact proper_ok .refl
  | some lkeys =>
    cases fast with
    | false =>
      rcases tryToPostOp_spec (h.pushed kind a lkeys).ready kind with ⟨t', hrun, hchain, -⟩
      simp only [issue, hreg]
      change Proper t (Except.map _ (Except.map _ ((t.pushed kind a lkeys).tryToPostOp kind)))
      rw [hrun]
      exact proper_ok (.head (.push t kind a lkeys) (ticks_of_postings hchain))
    | true =>
      rcases issue_fast (t := t) hreg kind with ⟨hvalid, hrun⟩ | ⟨_, hrun⟩
      · rw [hrun]
        refine proper_ok (.single (.frame _ _ ?_))
        refine ⟨rfl, id, fun hle => ?_, le_bump t kind, ⟨[t.newFast kind a lkeys], rfl, ?_⟩, ?_, ?_⟩
        · change (if kind = .put then _ else _) ≤ _
          split
          · exact Nat.and_le_right
          · exact hle
        · intro p hp
          rw [List.mem_singleton.mp hp]
          rfl
        · intro k
          by_cases hk : k = kind
          · subst hk
            rw [fastPosted_ops_self]
          · rw [fastPosted_ops_of_ne t a lkeys hk]
        · intro k
          by_cases hk : k = kind
          · subst hk
            rw [fastPosted_ops_self]
            exact List.Subset.refl _
          · rw [fastPosted_ops_of_ne t a lkeys hk]
            exact List.Subset.refl _
      · rw [hrun]
        exact proper_ok (.single (.frame _ _ { frame_refl t with opId := le_bump t kind }))

theorem Lined.proper_iputs : ∀ {puts : List OpArgs} {t : CtranIbVirtualConn}, t.Lined →
    Proper t ((iputs puts t).map Prod.snd)
  | [], t, _ => proper_ok .refl
  | a :: puts, t, h => by
    have hfirst := h.proper_issue .put a false
    cases hput : t.iput a false with
    | error e =>
      simp only [iputs, hput]
      rw [iput] at hput
      rw [hput] at hfirst
      exact hfirst
    | ok v =>
      rcases v with ⟨r, v⟩
      simp only [iputs, hput]
      rw [iput] at hput
      rw [hput] at hfirst
      have hticks := hfirst.ticks v rfl
      split
      · exact (Lined.proper_iputs (h.ticks hticks)).after hticks
      · exact proper_ok hticks

theorem frame_linked {msgs : List OpArgs} {chain : List (Posted × OpArgs)}
    (h : Linked t msgs chain u) : Frame t u where
  __ := h
  robin hlt := by rwa [h.robin, h.cfg]
  opId k := by
    cases k with
    | put =>
      rw [h.next]
      exact Nat.le_add_right _ _
    | get => rw [h.getId]
  posted := ⟨[], by rw [h.posted, List.append_nil], fun _ hp => nomatch hp⟩
  pending k := by
    cases k with
    | put => rw [h.pending]
    | get => rw [h.gets]
  outstanding k := by
    cases k with
    | put =>
      rw [h.outstanding]
      exact List.Subset.refl _
    | get =>
      rw [h.gets]
      exact List.Subset.refl _

theorem Lined.proper_iputBatch (h : t.Lined) (msgs : List OpArgs) :
    Proper t ((t.iputBatch msgs).map Prod.snd) := by
  by_cases hne : msgs = []
  · subst hne
    exact proper_ok .refl
  · by_cases hchained : t.sendChained msgs
    · rcases iputBatch_chained hne hchained with ⟨chain, v, hlinked, hrun⟩
      have hframe := frame_linked hlinked
      rw [hrun]
      split
      · refine proper_ok (.head (.frame _ _ hframe) (.single (.frame _ _ ?_)))
        refine { frame_refl v with posted := ⟨chain.map Prod.fst, rfl, fun p hp => ?_⟩ }
        rcases List.mem_map.mp hp with ⟨x, hx, rfl⟩
        exact (hlinked.carries x hx).fast
      · refine proper_ok (.head (.frame _ _ hframe) (.single (.frame _ _ ?_)))
        exact { frame_refl v with opId := le_bump v .put }
    · rw [iputBatch_fallback hchained]
      exact h.proper_iputs

/-! ### Completions -/

theorem frame_burnDownFrom (kind : OpKind) : ∀ (l : List OpInfo) (t : CtranIbVirtualConn),
    (t.ops kind).outstanding = l → Frame t (burnDownFrom kind l t)
  | [], t, _ => frame_refl t
  | op :: rest, t, hl => by
    rw [burnDownFrom]
    split
    · exact frame_refl t
    · have hsame := sameData_finishOp t kind op
      have hburn : Frame (t.finishOp kind op)
          ((t.finishOp kind op).setOps kind fun q => { q with outstanding := rest }) := by
        refine frame_setOps _ kind rfl ?_
        rw [hsame.ops, hl]
        exact List.subset_cons_self _ _
      refine ((frame_sameData hsame).trans hburn).trans (frame_burnDownFrom kind rest _ ?_)
      rw [ops_setOps_self]

theorem frame_burnDown (t : CtranIbVirtualConn) (kind : OpKind) : Frame t (t.burnDown kind) := by
  rw [burnDown]
  split
  · exact frame_burnDownFrom kind _ t rfl
  · exact frame_refl t

theorem frame_retire (t : CtranIbVirtualConn) (kind : OpKind) (id : ℕ) :
    Frame t (t.setOps kind (OpQueues.retire · id)) := by
  have hcut : ∀ op : OpInfo, (op.retire id).cut = op.cut := by
    intro op
    unfold OpInfo.retire
    split <;> rfl
  refine frame_setOps t kind ?_ ?_
  · change List.map _ (List.map _ _) = _
    rw [List.map_map]
    exact List.map_congr_left fun op _ => hcut op
  · have hids : ((t.ops kind).outstanding.map (OpInfo.retire id)).map (·.id) =
        (t.ops kind).outstanding.map (·.id) := by
      rw [List.map_map]
      exact List.map_congr_left fun op _ => OpInfo.id_retire id op
    exact hids ▸ List.Subset.refl _

theorem Lined.proper_refill (h : t.Lined) (hframe : Frame t u) (kind : OpKind) (i : ℕ) :
    Proper t (u.queueOnQp kind i) :=
  ((h.frame hframe).ready.proper_queueOnQp kind i).after (.single (.frame _ _ hframe))

theorem Lined.proper_dataCqe (h : t.Lined) (i : ℕ) : Proper t (t.dataCqe i) := by
  unfold dataCqe
  split
  · exact proper_error (by decide) (by decide)
  · rename_i p _
    have hwire : Frame t { t with wire := t.wire.eraseP (·.qpIdx = i) } :=
      { frame_refl t with }
    have hwqe : Proper t (completeWqe { t with wire := t.wire.eraseP (·.qpIdx = i) } p.kind i
        p.wr.wrId) := by
      unfold completeWqe
      split
      · exact proper_error (by decide) (by decide)
      · rename_i w ws _
        split
        · exact proper_error (by decide) (by decide)
        · rename_i op _
          split
          · exact proper_error (by decide) (by decide)
          · have hqueue : Frame t { t with
                wire := t.wire.eraseP (·.qpIdx = i)
                pendingWqeQs_ := Function.update t.pendingWqeQs_ i ws } := { frame_refl t with }
            exact h.proper_refill ((hqueue.trans (frame_retire _ p.kind op.id)).trans
              (frame_burnDown _ p.kind)) p.kind i
    simp only [opComplete]
    split
    · rename_i f fs hf
      split
      · have hfast : Frame t ((completeReq { t with wire := t.wire.eraseP (·.qpIdx = i) }
            (.op p.kind f.id) f.req).setOps p.kind fun q => { q with fast := fs }) :=
          (hwire.trans (frame_sameData (sameData_completeReq _ _ _))).trans
            (frame_setOps _ p.kind rfl (List.Subset.refl _))
        unfold completeFast
        simp only
        split
        · exact h.proper_refill (hfast.trans (frame_burnDown _ p.kind)) p.kind i
        · exact h.proper_refill hfast p.kind i
      · exact hwqe
    · exact hwqe

theorem proper_notifyCqe (t : CtranIbVirtualConn) : Proper t t.notifyCqe := by
  unfold notifyCqe
  split
  · exact proper_error (by decide) (by decide)
  · unfold notifyComplete
    split
    · exact proper_error (by decide) (by decide)
    · split
      · exact proper_error (by decide) (by decide)
      · exact proper_ok (.single (.frame _ _ (frame_sameData (SameData.trans
          (by constructor <;> rfl) (sameData_tryPostImmNotifyMsg _)))))

theorem Lined.proper_postStep (h : t.Lined) (op : PostCall) : Proper t (t.postStep op) := by
  cases op with
  | queueOnQp kind i => exact h.ready.proper_queueOnQp kind i
  | tryToPostOp kind => exact h.ready.proper_tryToPostOp kind
  | call op =>
    cases op with
    | iputBatch msgs => exact h.proper_iputBatch msgs
    | one op =>
      cases op with
      | iput a fast => exact h.proper_issue .put a fast
      | iget a fast => exact h.proper_issue .get { a with notify := false } fast
      | notify req => exact proper_ok (.single (.frame _ _ (frame_sameData (sameData_notify t req))))
      | dataCqe i => exact h.proper_dataCqe i
      | notifyCqe => exact proper_notifyCqe t

/-! ### One operation -/

def pendingIds (t : CtranIbVirtualConn) (kind : OpKind) : List ℕ :=
  (t.ops kind).pending.map (·.id)

def outstandingIds (t : CtranIbVirtualConn) (kind : OpKind) : List ℕ :=
  (t.ops kind).outstanding.map (·.id)

/-- How far the operation `o` has got: it is pending until its last chunk is posted. -/
structure Followed (c : VcConfig) (kind : OpKind) (o : OpInfo) (t : CtranIbVirtualConn) : Prop
    extends Lined t where
  cfg : t.cfg = c
  numbered : o.id < t.opId_ kind
  state : (∃ op ∈ (t.ops kind).pending, op.issued = o ∧ CutTo c kind o (t.chunks kind o.id) op.offset ∧
      (op.offset < o.len ∨ t.chunks kind o.id = [])) ∨
    (∀ op ∈ (t.ops kind).pending, op.id ≠ o.id) ∧ CutTo c kind o (t.chunks kind o.id) o.len ∧
      t.chunks kind o.id ≠ []

theorem chunks_eq_nil {id : ℕ} (h : id ∉ t.chunkIds kind) : t.chunks kind id = [] := by
  rw [chunks, List.filter_eq_nil_iff]
  intro p hp hof
  rcases Posted.isOf_iff.mp hof with ⟨hfast, hkind, hid⟩
  apply h
  rw [← hid]
  exact List.mem_map_of_mem (List.mem_filter.mpr ⟨hp, by simp [hfast, hkind]⟩)

theorem Lined.followed (h : t.Lined) (kind : OpKind) (a : OpArgs) (lkeys : List ℕ) :
    Followed t.cfg kind (t.newOp kind a lkeys) (t.pushed kind a lkeys) := by
  have hnone : (t.pushed kind a lkeys).chunks kind (t.opId_ kind) = [] :=
    chunks_eq_nil fun hmem => absurd (h.known kind _ hmem) (Nat.lt_irrefl _)
  refine ⟨h.pushed kind a lkeys, rfl, ?_, Or.inl ⟨t.newOp kind a lkeys, ?_, rfl, ?_, Or.inr hnone⟩⟩
  · change t.opId_ kind < Function.update t.opId_ kind (t.opId_ kind + 1) kind
    rw [Function.update_self]
    exact Nat.lt_succ_self _
  · rw [pending_pushed, if_pos rfl]
    exact List.mem_append_right _ (List.mem_singleton_self _)
  · have hstart := cutTo_nil t.cfg kind (t.newOp kind a lkeys)
    rw [← hnone] at hstart
    exact hstart

theorem Followed.frame (h : Followed c kind o t) (hframe : Frame t t') : Followed c kind o t' where
  toLined := h.toLined.frame hframe
  cfg := hframe.cfg.trans h.cfg
  numbered := Nat.lt_of_lt_of_le h.numbered (hframe.opId kind)
  state := by
    rw [hframe.chunks]
    rcases h.state with ⟨op, hop, rfl, hcut, hmore⟩ | ⟨hgone, hcut, hne⟩
    · rcases hframe.mem_pending hop with ⟨op', hop', heq⟩
      rw [← offset_eq_of_cut heq] at hcut hmore
      exact Or.inl ⟨op', hop', issued_eq_of_cut heq, hcut, hmore⟩
    · refine Or.inr ⟨fun op hop => ?_, hcut, hne⟩
      rcases hframe.pending_mem hop with ⟨op', hop', heq⟩
      rw [← id_eq_of_cut heq]
      exact hgone op' hop'

theorem Followed.pushed (h : Followed c kind o t) (k : OpKind) (a : OpArgs) (lkeys : List ℕ) :
    Followed c kind o (t.pushed k a lkeys) where
  toLined := h.toLined.pushed k a lkeys
  cfg := h.cfg
  numbered := Nat.lt_of_lt_of_le h.numbered (le_bump t k kind)
  state := by
    change (∃ op ∈ _, _ ∧ CutTo c kind o (t.chunks kind o.id) _ ∧ (_ ∨ t.chunks kind o.id = [])) ∨
      _ ∧ CutTo c kind o (t.chunks kind o.id) o.len ∧ t.chunks kind o.id ≠ []
    rw [pending_pushed]
    rcases h.state with ⟨op, hop, hrest⟩ | ⟨hgone, hrest⟩
    · exact Or.inl ⟨op, List.mem_append_left _ hop, hrest⟩
    · refine Or.inr ⟨fun op hop => ?_, hrest⟩
      rcases List.mem_append.mp hop with hop | hop
      · exact hgone op hop
      · split at hop
        · rename_i hk
          subst hk
          rw [List.mem_singleton.mp hop]
          exact Nat.ne_of_gt h.numbered
        · cases hop

theorem Lined.eq_of_id (h : t.Lined) {op op' : OpInfo} (hop : op ∈ (t.ops k).pending)
    (hop' : op' ∈ (t.ops k).pending) (hid : op.id = op'.id) : op = op' := by
  have hnodup : ((t.ops k).pending.map (·.id)).Nodup :=
    List.pairwise_map.mpr ((h.pending k).imp Nat.ne_of_lt)
  exact List.inj_on_of_nodup_map hnodup hop hop' hid

section

variable (h : Followed c kind o t)
include h

theorem Followed.own (hp : (t.ops kind).pending = op :: rest) (hid : op.id = o.id) (i : ℕ) :
    op.issued = o ∧ CutTo c kind o (t.chunks kind o.id ++ [t.newWqe kind i op])
        (op.offset + t.cfg.toSend op) ∧ ∀ op' ∈ rest, op'.id ≠ o.id := by
  have hfront : op ∈ (t.ops kind).pending := by simp [hp]
  have hsorted := h.pending kind
  rw [hp, List.pairwise_cons] at hsorted
  rcases h.state with ⟨op', hop', hissued, hcut, hmore⟩ | ⟨hgone, -⟩
  · have hown : op'.id = op.id := by rw [hid, ← hissued]; rfl
    have heq : op' = op := h.toLined.eq_of_id hop' hfront hown
    subst heq
    have hcfg := h.cfg
    subst hissued hcfg
    refine ⟨rfl, hcut.concat h.sndNxt (h.ready.within kind op' hfront) hmore i, fun op'' hop'' => ?_⟩
    exact Nat.ne_of_gt (hsorted.1 op'' hop'')
  · exact absurd hid (hgone op hfront)

theorem Followed.postWqe (hp : (t.ops k).pending = op :: rest) (i : ℕ) :
    Followed c kind o (t.postWqe k i op rest) where
  toLined := h.toLined.postWqe hp i
  __ := h
  state := by
    rw [chunks_postWqe]
    by_cases hown : kind = k ∧ op.id = o.id
    · rcases hown with ⟨rfl, hid⟩
      rcases h.own hp hid i with ⟨hissued, hcut, hrest⟩
      have hwithin := h.ready.within kind op (by simp [hp])
      have hlen : o.len = op.len := by rw [← hissued]; rfl
      rw [if_pos ⟨rfl, hid⟩, postWqe_ops_self, OpQueues.advance]
      split
      · rename_i hfinal
        rw [isFinal_iff hwithin, ← hlen] at hfinal
        rw [hfinal] at hcut
        exact Or.inr ⟨hrest, hcut, List.append_ne_nil_of_right_ne_nil _ (List.cons_ne_nil _ _)⟩
      · rename_i hfinal
        rw [isFinal_iff hwithin] at hfinal
        have hle := (VcConfig.advance_offset (c := t.cfg) hwithin).1
        refine Or.inl ⟨t.cfg.advance op, List.mem_cons_self .., hissued, hcut, Or.inl ?_⟩
        rw [hlen]
        exact Nat.lt_of_le_of_ne hle hfinal
    · rw [if_neg hown, List.append_nil]
      rcases h.state with ⟨op', hop', hissued, hcut⟩ | ⟨hgone, hcut⟩
      · refine Or.inl ⟨op', ?_, hissued, hcut⟩
        by_cases hk : kind = k
        · subst hk
          rw [hp] at hop'
          rw [postWqe_ops_self, OpQueues.advance]
          rcases List.mem_cons.mp hop' with rfl | hmem
          · exact absurd ⟨rfl, by rw [← hissued]; rfl⟩ hown
          · split
            · exact hmem
            · exact List.mem_cons_of_mem _ hmem
        · rw [postWqe_ops_of_ne hk]
          exact hop'
      · refine Or.inr ⟨fun op' hop' => ?_, hcut⟩
        rcases (ids_postWqe hp i).1 kind op' hop' with hmem | ⟨rfl, -, rfl⟩
        · exact hgone op' hmem
        · exact hgone op (by simp [hp])

theorem Followed.tick (htick : Tick t t') : Followed c kind o t' := by
  cases htick with
  | frame _ hframe => exact h.frame hframe
  | wqe k i op rest hp => exact h.postWqe hp i
  | push k a lkeys => exact h.pushed k a lkeys

theorem Followed.ticks (hticks : ReflTransGen Tick t t') : Followed c kind o t' := by
  induction hticks with
  | refl => exact h
  | tail _ hlast ih => exact ih.tick hlast

end

/-- The work requests of the operation `o` cut its buffer once, up to the offset `e`: they lie one
behind the other, each byte before `e` is in one of them, the last one takes the operation from the
pending to the outstanding ones, and no further call throws or goes round for ever. -/
structure CutOnce (c : VcConfig) (kind : OpKind) (o : OpInfo) (t : CtranIbVirtualConn) (e : ℕ) :
    Prop where
  le : e ≤ o.len
  cut : CutTo c kind o (t.chunks kind o.id) e
  covers : ∀ b, (t.chunks kind o.id).countP (fun p => p.wr.addr ≤ o.localBuf kind + b ∧
    o.localBuf kind + b < p.wr.addr + p.wr.length) = if b < e then 1 else 0
  pending : o.id ∈ t.pendingIds kind ↔ e < o.len ∨ t.chunks kind o.id = []
  outstanding : o.id ∈ t.outstandingIds kind → e = o.len ∧ t.chunks kind o.id ≠ []
  moves : ∀ i u, t.queueOnQp kind i = .ok u → u.chunks kind o.id ≠ t.chunks kind o.id →
    u.outstandingIds kind =
      t.outstandingIds kind ++ if o.id ∈ u.pendingIds kind then [] else [o.id]
  inOrder : (t.chunkIds kind).Pairwise (· ≤ ·)
  returns : ∀ op, t.postStep op ≠ .error .lengthMismatch ∧ t.postStep op ≠ .error .diverged

theorem CutTo.covers {e : ℕ} (h : CutTo c kind o ps e) (b : ℕ) :
    ps.countP (fun p => p.wr.addr ≤ o.localBuf kind + b ∧
      o.localBuf kind + b < p.wr.addr + p.wr.length) = if b < e then 1 else 0 := by
  rcases h.ranges with ⟨rs, hmap, hadjoin⟩
  have hcount := hadjoin.countP b
  simp only [Nat.zero_le, true_and] at hcount
  rw [← hcount]
  calc ps.countP (fun p => p.wr.addr ≤ o.localBuf kind + b ∧
        o.localBuf kind + b < p.wr.addr + p.wr.length)
      = (ps.map fun p => (p.wr.addr, p.wr.remoteAddr, p.wr.length)).countP
          (fun r => r.1 ≤ o.localBuf kind + b ∧ o.localBuf kind + b < r.1 + r.2.2) := by
        rw [List.countP_map]
        rfl
    _ = rs.countP (fun r => r.1 ≤ b ∧ b < r.1 + r.2) := by
        rw [hmap, List.countP_map]
        congr 1
        funext r
        simp only [Function.comp_apply, decide_eq_decide]
        omega

theorem Followed.moves (h : Followed c kind o t) (hok : t.queueOnQp kind i = .ok u)
    (hne : u.chunks kind o.id ≠ t.chunks kind o.id) : u.outstandingIds kind =
      t.outstandingIds kind ++ if o.id ∈ u.pendingIds kind then [] else [o.id] := by
  cases hp : (t.ops kind).pending with
  | nil =>
    rw [queueOnQp_nil hp] at hok
    cases hok
    exact absurd rfl hne
  | cons op rest =>
    rw [queueOnQp_cons h.ready hp] at hok
    cases hok
    by_cases hid : op.id = o.id
    · rcases h.own hp hid i with ⟨-, -, hrest⟩
      rw [outstandingIds, (ids_postWqe hp i).2 kind, pendingIds, postWqe_ops_self,
        OpQueues.advance, ← hid]
      congr 1
      cases hfinal : t.cfg.isFinal op with
      | true =>
        rw [if_pos ⟨rfl, rfl⟩, if_neg]
        rintro hmem
        rcases List.mem_map.mp hmem with ⟨op', hop', hid'⟩
        exact hrest op' hop' (hid'.trans hid)
      | false =>
        rw [if_neg (by simp), if_pos]
        exact List.mem_cons_self ..
    · rw [chunks_postWqe, if_neg (fun hboth => hid hboth.2), List.append_nil] at hne
      exact absurd rfl hne

theorem Followed.cutOnce (h : Followed c kind o t) : ∃ e, CutOnce c kind o t e := by
  have hreturns : ∀ op, t.postStep op ≠ .error .lengthMismatch ∧ t.postStep op ≠ .error .diverged :=
    fun op => ⟨(h.toLined.proper_postStep op).noThrow, (h.toLined.proper_postStep op).ends⟩
  rcases h.state with ⟨op, hop, hissued, hcut, hmore⟩ | ⟨hgone, hcut, hne⟩
  · have hid : op.id = o.id := by rw [← hissued]; rfl
    have hlen : o.len = op.len := by rw [← hissued]; rfl
    have hmem : o.id ∈ t.pendingIds kind := List.mem_map.mpr ⟨op, hop, hid⟩
    refine ⟨op.offset, ?_, hcut, hcut.covers, ⟨fun _ => hmore, fun _ => hmem⟩, fun hout => ?_,
      fun i u => h.moves, h.posted kind, hreturns⟩
    · rw [hlen]
      exact h.ready.within kind op hop
    · have hlt := h.done kind op hop o.id hout
      rw [hid] at hlt
      exact absurd hlt (Nat.lt_irrefl _)
  · refine ⟨o.len, Nat.le_refl _, hcut, hcut.covers, ⟨fun hmem => ?_, fun hmore => ?_⟩,
      fun _ => ⟨rfl, hne⟩, fun i u => h.moves, h.posted kind, hreturns⟩
    · rcases List.mem_map.mp hmem with ⟨op, hop, hid⟩
      exact absurd hid (hgone op hop)
    · exact absurd hmore (by simp [hne])

/-! ### Runs -/

theorem Lined.run {ops : List PostCall} (h : t.Lined) (hrun : run postStep t ops = .ok t') :
    ReflTransGen Tick t t' := by
  induction ops generalizing t with
  | nil =>
    cases hrun
    exact .refl
  | cons op ops ih =>
    rw [Foundation.run] at hrun
    cases hstep : t.postStep op with
    | error e =>
      rw [hstep] at hrun
      cases hrun
    | ok u =>
      rw [hstep] at hrun
      have hfirst := (h.proper_postStep op).ticks u hstep
      exact hfirst.trans (ih (h.ticks hfirst) hrun)

/-- Two and a half chunks, on one QP that is to hold one at a time. -/
def chunkedPut : OpArgs where
  sbuf := 0
  dbuf := 65536
  len := 10240
  ibRegElem := some [1]
  rkeys := [2]
  notify := true
  config := some ⟨1, 1, 4096, .dqplb, Nat.one_pos, Nat.one_pos⟩
  req := some 7

end CtranIbVirtualConn
end TorchComms.CtranIb
