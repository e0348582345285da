import TorchComms.CtranIb.VirtualConn
import TorchComms.Foundation.WorkQueue

/-! # Every completion is charged to the operation it belongs to

The changes that the data path is made of, one for each work request posted, operation accepted or
finished and completion taken. What the queues say of the wire survives each of them, so that no
completion finds a wrong entry and no step fails.
-/
namespace TorchComms.CtranIb
def Posted.wqe (p : Posted) : WqeInfo := ⟨p.wr.wrId, p.kind, p.id⟩

@[simp] theorem OpInfo.id_retire (id : ℕ) (op : OpInfo) : (op.retire id).id = op.id := by
  unfold OpInfo.retire
  split <;> rfl

/-- A regular work request of an operation. -/
def Posted.isOf (kind : OpKind) (id : ℕ) (p : Posted) : Bool :=
  !p.fast && (p.kind = kind && p.id = id)

theorem Posted.isOf_iff {kind : OpKind} {id : ℕ} {p : Posted} :
    p.isOf kind id ↔ p.fast = false ∧ p.kind = kind ∧ p.id = id := by
  simp [Posted.isOf]

theorem VcConfig.advance_offset {c : VcConfig} {op : OpInfo} (h : op.offset ≤ op.len) :
    (c.advance op).offset ≤ op.len ∧ (c.isFinal op → (c.advance op).offset = op.len) := by
  have hle : c.toSend op ≤ op.len - op.offset := Nat.min_le_left ..
  constructor
  · change op.offset + c.toSend op ≤ op.len
    omega
  · intro hfinal
    have hall : c.toSend op = op.len - op.offset := of_decide_eq_true hfinal
    change op.offset + c.toSend op = op.len
    omega

theorem OpQueues.live_advance (q : OpQueues) (op : OpInfo) (rest : List OpInfo) (final : Bool) :
    (q.advance op rest final).outstanding ++ (q.advance op rest final).pending =
      q.outstanding ++ op :: rest := by
  unfold OpQueues.advance
  split <;> simp

@[simp] theorem OpQueues.fast_advance (q : OpQueues) (op : OpInfo) (rest : List OpInfo)
    (final : Bool) : (q.advance op rest final).fast = q.fast := by
  unfold OpQueues.advance
  split <;> rfl

namespace CtranIbVirtualConn

open Foundation Relation

variable {t t' : CtranIbVirtualConn} {kind k : OpKind} {op : OpInfo} {rest : List OpInfo}

/-! ### The parts of the state that a change leaves alone -/

@[simp] theorem ops_setOps_self (t : CtranIbVirtualConn) (kind : OpKind) (f : OpQueues → OpQueues) :
    (t.setOps kind f).ops kind = f (t.ops kind) := Function.update_self ..

theorem ops_setOps_of_ne (t : CtranIbVirtualConn) (f : OpQueues → OpQueues) (h : k ≠ kind) :
    (t.setOps kind f).ops k = t.ops k := Function.update_of_ne h ..

/-- Without the notifications and the logs of requests. -/
structure SameData (t t' : CtranIbVirtualConn) : Prop where
  cfg : t'.cfg = t.cfg
  ops : t'.ops = t.ops
  opId : t'.opId_ = t.opId_
  queues : t'.pendingWqeQs_ = t.pendingWqeQs_
  robin : t'.qpIdxRR_ = t.qpIdxRR_
  sndNxt : t'.sndNxt_ = t.sndNxt_
  wire : t'.wire = t.wire
  posted : t'.posted = t.posted
  issued : t'.issued = t.issued

theorem SameData.trans {t'' : CtranIbVirtualConn} (h : SameData t t') (h' : SameData t' t'') :
    SameData t t'' where
  cfg := h'.cfg.trans h.cfg
  ops := h'.ops.trans h.ops
  opId := h'.opId.trans h.opId
  queues := h'.queues.trans h.queues
  robin := h'.robin.trans h.robin
  sndNxt := h'.sndNxt.trans h.sndNxt
  wire := h'.wire.trans h.wire
  posted := h'.posted.trans h.posted
  issued := h'.issued.trans h.issued

theorem sameData_completeReq (t : CtranIbVirtualConn) (owner : Owner) (req : Option ℕ) :
    SameData t (t.completeReq owner req) := by
  constructor <;> rfl

theorem sameData_tryPostImmNotifyMsg (t : CtranIbVirtualConn) :
    SameData t t.tryPostImmNotifyMsg := by
  unfold tryPostImmNotifyMsg
  split
  · constructor <;> rfl
  · split <;> constructor <;> rfl

theorem sameData_queueNotify (t : CtranIbVirtualConn) (req putId : Option ℕ) :
    SameData t (t.queueNotify req putId) := by
  refine SameData.trans ?_ (sameData_tryPostImmNotifyMsg _)
  constructor <;> rfl

theorem sameData_notify (t : CtranIbVirtualConn) (req : Option ℕ) : SameData t (t.notify req) := by
  refine SameData.trans ?_ (sameData_queueNotify _ _ _)
  constructor <;> rfl

theorem sameData_finishOp (t : CtranIbVirtualConn) (kind : OpKind) (op : OpInfo) :
    SameData t (t.finishOp kind op) := by
  unfold finishOp
  split
  · exact sameData_queueNotify ..
  · exact sameData_completeReq ..

/-! ### What the queues say of the wire -/

/-- The regular work requests of an operation that are on the wire. -/
def inFlight (t : CtranIbVirtualConn) (kind : OpKind) (id : ℕ) : ℕ :=
  t.wire.countP (Posted.isOf kind id)

def liveIds (t : CtranIbVirtualConn) (kind : OpKind) : List ℕ := (t.live kind).map (·.id)

structure Consistent (t : CtranIbVirtualConn) : Prop where
  queues : ∀ q, t.pendingWqeQs_ q =
    (t.wire.filter fun p => !p.fast && p.qpIdx = q).map Posted.wqe
  fasts : ∀ kind, (t.ops kind).fast.map (·.id) =
    (t.wire.filter fun p => p.fast && p.kind = kind).map (·.id)
  fastQp : ∀ p ∈ t.wire, p.fast → p.qpIdx = 0
  fastFirst : t.wire.Pairwise fun p p' => p'.fast → p.kind = p'.kind → p.fast
  owned : ∀ p ∈ t.wire, p.fast = false → p.id ∈ t.liveIds p.kind
  counted : ∀ kind, ∀ op ∈ t.live kind, op.outstandingWqes = t.inFlight kind op.id
  sorted : ∀ kind, (t.liveIds kind).Pairwise (· < ·)
  fresh : ∀ kind, ∀ id ∈ t.liveIds kind, id < t.opId_ kind
  sent : ∀ kind, ∀ op ∈ (t.ops kind).outstanding, op.offset = op.len
  within : ∀ kind, ∀ op ∈ (t.ops kind).pending, op.offset ≤ op.len
  robin : t.qpIdxRR_ < t.cfg.maxNumQps_
  inRange : ∀ p ∈ t.wire, p.qpIdx < t.cfg.maxNumQps_

theorem consistent_init (cfg : VcConfig) : Consistent { cfg := cfg } where
  queues _ := rfl
  fasts _ := rfl
  fastQp _ h := nomatch h
  fastFirst := List.Pairwise.nil
  owned _ h := nomatch h
  counted _ _ h := nomatch h
  sorted _ := List.Pairwise.nil
  fresh _ _ h := nomatch h
  sent _ _ h := nomatch h
  within _ _ h := nomatch h
  robin := cfg.maxNumQps_pos
  inRange _ h := nomatch h

theorem Consistent.of_ops (h : t.Consistent) (hops : t'.ops = t.ops)
    (hqueues : t'.pendingWqeQs_ = t.pendingWqeQs_) (hwire : t'.wire = t.wire)
    (hid : ∀ k, t.opId_ k ≤ t'.opId_ k) (hcfg : t'.cfg = t.cfg)
    (hrobin : t'.qpIdxRR_ < t'.cfg.maxNumQps_) : t'.Consistent := by
  cases t
  cases t'
  dsimp only at hops hqueues hwire hcfg
  subst hops hqueues hwire hcfg
  exact { h with
    fresh := fun k id hmem => Nat.lt_of_lt_of_le (h.fresh k id hmem) (hid k)
    robin := hrobin }

theorem Consistent.of_sameData (h : t.Consistent) (hsame : SameData t t') : t'.Consistent := by
  apply h.of_ops hsame.ops hsame.queues hsame.wire _ hsame.cfg
  · rw [hsame.robin, hsame.cfg]
    exact h.robin
  · intro k
    rw [hsame.opId]

/-! ### A work request is posted -/

theorem dataWr_kind (t : CtranIbVirtualConn) (kind : OpKind) (op : OpInfo) (toSend device : ℕ)
    (final : Bool) : (t.dataWr kind op toSend device final).opcode.kind = kind := by
  cases kind with
  | put =>
    unfold dataWr
    by_cases h : sequenced op <;> simp [h, WrOpcode.kind]
  | get => rfl

/-- The work request of `postWqe`. -/
def newWqe (t : CtranIbVirtualConn) (kind : OpKind) (i : ℕ) (op : OpInfo) : Posted :=
  ⟨i, t.dataWr kind op (t.cfg.toSend op) (t.cfg.getIbDevFromQpIdx i) (t.cfg.isFinal op), op.id, false⟩

theorem newWqe_kind (t : CtranIbVirtualConn) (kind : OpKind) (i : ℕ) (op : OpInfo) :
    (t.newWqe kind i op).kind = kind := dataWr_kind ..

theorem postWqe_wire (t : CtranIbVirtualConn) (kind : OpKind) (i : ℕ) (op : OpInfo)
    (rest : List OpInfo) : (t.postWqe kind i op rest).wire = t.wire ++ [t.newWqe kind i op] := rfl

theorem postWqe_ops_of_ne (h : k ≠ kind) (i : ℕ) :
    (t.postWqe kind i op rest).ops k = t.ops k := Function.update_of_ne h ..

theorem postWqe_ops_self (t : CtranIbVirtualConn) (kind : OpKind) (i : ℕ) (op : OpInfo)
    (rest : List OpInfo) : (t.postWqe kind i op rest).ops kind =
      (t.ops kind).advance (t.cfg.advance op) rest (t.cfg.isFinal op) := Function.update_self ..

theorem postWqe_live_self (t : CtranIbVirtualConn) (kind : OpKind) (i : ℕ) (op : OpInfo)
    (rest : List OpInfo) : (t.postWqe kind i op rest).live kind =
      (t.ops kind).outstanding ++ t.cfg.advance op :: rest := by
  simp only [live, postWqe_ops_self, OpQueues.live_advance]

theorem live_eq (h : (t.ops kind).pending = op :: rest) :
    t.live kind = (t.ops kind).outstanding ++ op :: rest := by
  rw [live, h]

theorem postWqe_liveIds (h : (t.ops kind).pending = op :: rest) (i : ℕ) (k : OpKind) :
    (t.postWqe kind i op rest).liveIds k = t.liveIds k := by
  by_cases hk : k = kind
  · subst hk
    simp only [liveIds, postWqe_live_self, live_eq h, List.map_append, List.map_cons]
    rfl
  · simp only [liveIds, live, postWqe_ops_of_ne hk]

theorem Consistent.eq_of_id {op' : OpInfo} (h : t.Consistent) (hop : op ∈ t.live kind)
    (hop' : op' ∈ t.live kind) (hid : op.id = op'.id) : op = op' := by
  have hnodup : (t.liveIds kind).Nodup := (h.sorted kind).imp Nat.ne_of_lt
  exact List.inj_on_of_nodup_map hnodup hop hop' hid

theorem within_postWqe (h : ∀ k, ∀ op ∈ (t.ops k).pending, op.offset ≤ op.len)
    (hp : (t.ops kind).pending = op :: rest) (i : ℕ) :
    ∀ k, ∀ op' ∈ ((t.postWqe kind i op rest).ops k).pending, op'.offset ≤ op'.len := by
  intro k op' hop'
  by_cases hk : k = kind
  · subst hk
    rw [postWqe_ops_self, OpQueues.advance] at hop'
    split at hop'
    · exact h k op' (by simp [hp, hop'])
    · rcases List.mem_cons.mp hop' with rfl | hop'
      · exact (VcConfig.advance_offset (h k op (by simp [hp]))).1
      · exact h k op' (by simp [hp, hop'])
  · rw [postWqe_ops_of_ne hk] at hop'
    exact h k op' hop'

theorem Consistent.postWqe (h : t.Consistent) (hp : (t.ops kind).pending = op :: rest) {i : ℕ}
    (hi : i < t.cfg.maxNumQps_) : (t.postWqe kind i op rest).Consistent where
  queues q := by
    have hq : (t.postWqe kind i op rest).pendingWqeQs_ = Function.update t.pendingWqeQs_ i
        (t.pendingWqeQs_ i ++ [⟨(t.newWqe kind i op).wr.wrId, kind, op.id⟩]) := rfl
    have hwqe : (t.newWqe kind i op).wqe = ⟨(t.newWqe kind i op).wr.wrId, kind, op.id⟩ := by
      simp only [Posted.wqe, newWqe_kind]
      rfl
    rw [hq, postWqe_wire, List.filter_append, List.map_append, ← h.queues q, List.filter_singleton]
    by_cases hqi : q = i
    · subst hqi
      rw [Function.update_self, ← hwqe]
      simp [newWqe]
    · rw [Function.update_of_ne hqi]
      simp [newWqe, Ne.symm hqi]
  fasts k := by
    have hfast : ((t.postWqe kind i op rest).ops k).fast = (t.ops k).fast := by
      by_cases hk : k = kind
      · subst hk
        rw [postWqe_ops_self, OpQueues.fast_advance]
      · rw [postWqe_ops_of_ne hk]
    rw [hfast, h.fasts k, postWqe_wire, List.filter_append, List.filter_singleton]
    simp [newWqe]
  fastQp p hpw hfast := by
    rw [postWqe_wire, List.mem_append, List.mem_singleton] at hpw
    rcases hpw with hpw | rfl
    · exact h.fastQp p hpw hfast
    · cases hfast
  fastFirst := by
    rw [postWqe_wire, List.pairwise_append]
    refine ⟨h.fastFirst, List.pairwise_singleton .., ?_⟩
    intro p _ p' hp' hfast
    rw [List.mem_singleton] at hp'
    subst hp'
    cases hfast
  owned p hpw hfast := by
    rw [postWqe_liveIds hp]
    rw [postWqe_wire, List.mem_append, List.mem_singleton] at hpw
    rcases hpw with hpw | rfl
    · exact h.owned p hpw hfast
    · rw [newWqe_kind, liveIds, live_eq hp]
      exact List.mem_map_of_mem (by simp)
  counted k op' hop' := by
    have hcount : (t.postWqe kind i op rest).inFlight k op'.id =
        t.inFlight k op'.id + if kind = k ∧ op.id = op'.id then 1 else 0 := by
      rw [inFlight, postWqe_wire, List.countP_append, List.countP_singleton]
      simp only [Posted.isOf_iff, newWqe_kind]
      simp only [inFlight, newWqe, true_and]
    rw [hcount]
    by_cases hk : k = kind
    · subst hk
      have hmem : op ∈ t.live k := by simp [live_eq hp]
      rw [postWqe_live_self, List.mem_append, List.mem_cons] at hop'
      have hother : op' ∈ t.live k → op' ≠ op →
          op'.outstandingWqes = t.inFlight k op'.id + if k = k ∧ op.id = op'.id then 1 else 0 := by
        intro hlive hne
        rw [if_neg, Nat.add_zero]
        · exact h.counted k op' hlive
        · rintro ⟨_, hid⟩
          exact hne (h.eq_of_id hlive hmem hid.symm)
      have hids : ((t.ops k).outstanding.map (·.id) ++ op.id :: rest.map (·.id)).Pairwise (· < ·) := by
        have hsorted := h.sorted k
        rwa [liveIds, live_eq hp, List.map_append, List.map_cons] at hsorted
      rw [List.pairwise_append, List.pairwise_cons] at hids
      rcases hop' with hop' | rfl | hop'
      · apply hother
        · simp [live_eq hp, hop']
        · rintro rfl
          exact Nat.lt_irrefl _ (hids.2.2 _ (List.mem_map_of_mem hop') _ (List.mem_cons_self ..))
      · change op.outstandingWqes + 1 = t.inFlight k op.id + _
        rw [h.counted k op hmem, if_pos ⟨rfl, rfl⟩]
      · apply hother
        · simp [live_eq hp, hop']
        · rintro rfl
          exact Nat.lt_irrefl _ (hids.2.1.1 _ (List.mem_map_of_mem hop'))
    · rw [if_neg fun hc => hk hc.1.symm, Nat.add_zero]
      rw [live, postWqe_ops_of_ne hk] at hop'
      exact h.counted k op' hop'
  sorted k := by
    rw [postWqe_liveIds hp]
    exact h.sorted k
  fresh k := by
    rw [postWqe_liveIds hp]
    exact h.fresh k
  sent k op' hop' := by
    by_cases hk : k = kind
    · subst hk
      rw [postWqe_ops_self, OpQueues.advance] at hop'
      split at hop'
      · rename_i hfinal
        rw [List.mem_append, List.mem_singleton] at hop'
        rcases hop' with hop' | rfl
        · exact h.sent k op' hop'
        · exact (VcConfig.advance_offset (h.within k op (by simp [hp]))).2 hfinal
      · exact h.sent k op' hop'
    · rw [postWqe_ops_of_ne hk] at hop'
      exact h.sent k op' hop'
  within := within_postWqe h.within hp i
  robin := h.robin
  inRange p hpw := by
    rw [postWqe_wire, List.mem_append, List.mem_singleton] at hpw
    rcases hpw with hpw | rfl
    · exact h.inRange p hpw
    · exact hi

/-! ### An operation is accepted -/

/-- The number of the next operation of a kind is taken. -/
def bump (t : CtranIbVirtualConn) (kind : OpKind) : CtranIbVirtualConn :=
  { t with opId_ := Function.update t.opId_ kind (t.opId_ kind + 1) }

theorem le_bump (t : CtranIbVirtualConn) (kind k : OpKind) : t.opId_ k ≤ (t.bump kind).opId_ k := by
  by_cases hk : k = kind
  · subst hk
    simp [bump]
  · simp [bump, hk]

theorem Consistent.bump (h : t.Consistent) (kind : OpKind) : (t.bump kind).Consistent :=
  h.of_ops rfl rfl rfl (le_bump t kind) rfl h.robin

/-- A regular operation joins the pending ones. -/
def pushed (t : CtranIbVirtualConn) (kind : OpKind) (a : OpArgs) (lkeys : List ℕ) :
    CtranIbVirtualConn :=
  ((t.bump kind).accept kind (t.opId_ kind) a false).pushPending kind (t.opId_ kind) a lkeys

/-- An operation goes out over the fast path. -/
def fastPosted (t : CtranIbVirtualConn) (kind : OpKind) (a : OpArgs) (lkeys : List ℕ) :
    CtranIbVirtualConn :=
  ((t.bump kind).accept kind (t.opId_ kind) a true).postFast kind (t.opId_ kind) a lkeys

/-- The operation that `pushed` adds. -/
def newOp (t : CtranIbVirtualConn) (kind : OpKind) (a : OpArgs) (lkeys : List ℕ) : OpInfo where
  sbuf := a.sbuf
  dbuf := a.dbuf
  len := a.len
  lkeys := lkeys
  rkeys := a.rkeys
  notify := a.notify
  req := a.req
  config := a.config
  vcMode := t.cfg.getOpVcMode a.config
  id := t.opId_ kind

theorem pushed_ops_self (t : CtranIbVirtualConn) (kind : OpKind) (a : OpArgs) (lkeys : List ℕ) :
    (t.pushed kind a lkeys).ops kind = { t.ops kind with
      pending := (t.ops kind).pending ++ [t.newOp kind a lkeys] } := Function.update_self ..

theorem pushed_ops_of_ne (t : CtranIbVirtualConn) (a : OpArgs) (lkeys : List ℕ) (h : k ≠ kind) :
    (t.pushed kind a lkeys).ops k = t.ops k := Function.update_of_ne h ..

theorem pushed_live_self (t : CtranIbVirtualConn) (kind : OpKind) (a : OpArgs) (lkeys : List ℕ) :
    (t.pushed kind a lkeys).live kind = t.live kind ++ [t.newOp kind a lkeys] := by
  simp only [live, pushed_ops_self, List.append_assoc]

theorem inFlight_eq_zero (h : ∀ p ∈ t.wire, p.fast = false → p.kind = kind → p.id ≠ op.id) :
    t.inFlight kind op.id = 0 := by
  rw [inFlight, List.countP_eq_zero]
  intro p hp hof
  rcases Posted.isOf_iff.mp hof with ⟨hfast, hkind, hid⟩
  exact h p hp hfast hkind hid

theorem Consistent.pushed (h : t.Consistent) (kind : OpKind) (a : OpArgs) (lkeys : List ℕ) :
    (t.pushed kind a lkeys).Consistent where
  __ := h
  fasts k := by
    change _ = (t.wire.filter fun p => p.fast && p.kind = k).map (·.id)
    by_cases hk : k = kind
    · subst hk
      rw [pushed_ops_self]
      exact h.fasts k
    · rw [pushed_ops_of_ne t a lkeys hk]
      exact h.fasts k
  owned p hp hfast := by
    have hmem := h.owned p hp hfast
    by_cases hk : p.kind = kind
    · subst hk
      rw [liveIds, pushed_live_self, List.map_append]
      exact List.mem_append_left _ hmem
    · rwa [liveIds, live, pushed_ops_of_ne t a lkeys hk]
  counted k op hop := by
    change op.outstandingWqes = t.inFlight k op.id
    by_cases hk : k = kind
    · subst hk
      rw [pushed_live_self, List.mem_append, List.mem_singleton] at hop
      rcases hop with hop | rfl
      · exact h.counted k op hop
      · rw [inFlight_eq_zero]
        · rfl
        · rintro p hp hfast rfl hid
          exact Nat.ne_of_lt (h.fresh _ _ (h.owned p hp hfast)) hid
    · rw [live, pushed_ops_of_ne t a lkeys hk] at hop
      exact h.counted k op hop
  sorted k := by
    by_cases hk : k = kind
    · subst hk
      rw [liveIds, pushed_live_self, List.map_append, List.pairwise_append]
      refine ⟨h.sorted k, List.pairwise_singleton .., ?_⟩
      intro id hid id' hid'
      rw [List.map_singleton, List.mem_singleton] at hid'
      subst hid'
      exact h.fresh k id hid
    · rw [liveIds, live, pushed_ops_of_ne t a lkeys hk]
      exact h.sorted k
  fresh k id hid := by
    by_cases hk : k = kind
    · subst hk
      have hnext : (t.pushed k a lkeys).opId_ k = t.opId_ k + 1 := Function.update_self ..
      rw [liveIds, pushed_live_self, List.map_append, List.mem_append, List.map_singleton,
        List.mem_singleton] at hid
      rw [hnext]
      rcases hid with hid | rfl
      · exact Nat.lt_succ_of_lt (h.fresh k id hid)
      · exact Nat.lt_succ_self _
    · have hnext : (t.pushed kind a lkeys).opId_ k = t.opId_ k := Function.update_of_ne hk ..
      rw [liveIds, live, pushed_ops_of_ne t a lkeys hk] at hid
      rw [hnext]
      exact h.fresh k id hid
  sent k op hop := by
    by_cases hk : k = kind
    · subst hk
      rw [pushed_ops_self] at hop
      exact h.sent k op hop
    · rw [pushed_ops_of_ne t a lkeys hk] at hop
      exact h.sent k op hop
  within k op hop := by
    by_cases hk : k = kind
    · subst hk
      rw [pushed_ops_self, List.mem_append, List.mem_singleton] at hop
      rcases hop with hop | rfl
      · exact h.within k op hop
      · exact Nat.zero_le _
    · rw [pushed_ops_of_ne t a lkeys hk] at hop
      exact h.within k op hop

theorem fastWr_kind (t : CtranIbVirtualConn) (kind : OpKind) (a : OpArgs) (lkeys : List ℕ)
    (device : ℕ) : (t.fastWr kind a lkeys device).opcode.kind = kind := by
  cases kind <;> rfl

/-- The work request that `fastPosted` adds. -/
def newFast (t : CtranIbVirtualConn) (kind : OpKind) (a : OpArgs) (lkeys : List ℕ) : Posted :=
  ⟨0, t.fastWr kind a lkeys (t.cfg.getIbDevFromQpIdx 0), t.opId_ kind, true⟩

theorem newFast_kind (t : CtranIbVirtualConn) (kind : OpKind) (a : OpArgs) (lkeys : List ℕ) :
    (t.newFast kind a lkeys).kind = kind := fastWr_kind ..

theorem fastPosted_wire (t : CtranIbVirtualConn) (kind : OpKind) (a : OpArgs) (lkeys : List ℕ) :
    (t.fastPosted kind a lkeys).wire = t.wire ++ [t.newFast kind a lkeys] := rfl

theorem fastPosted_ops_self (t : CtranIbVirtualConn) (kind : OpKind) (a : OpArgs)
    (lkeys : List ℕ) : (t.fastPosted kind a lkeys).ops kind = { t.ops kind with
      fast := (t.ops kind).fast ++ [⟨t.opId_ kind, a.req⟩] } := Function.update_self ..

theorem fastPosted_ops_of_ne (t : CtranIbVirtualConn) (a : OpArgs) (lkeys : List ℕ)
    (h : k ≠ kind) : (t.fastPosted kind a lkeys).ops k = t.ops k := Function.update_of_ne h ..

theorem fastPosted_queues (t : CtranIbVirtualConn) (kind : OpKind) (a : OpArgs) (lkeys : List ℕ)
    (k : OpKind) : ((t.fastPosted kind a lkeys).ops k).pending = (t.ops k).pending ∧
      ((t.fastPosted kind a lkeys).ops k).outstanding = (t.ops k).outstanding := by
  by_cases hk : k = kind
  · subst hk
    rw [fastPosted_ops_self]
    exact ⟨rfl, rfl⟩
  · rw [fastPosted_ops_of_ne t a lkeys hk]
    exact ⟨rfl, rfl⟩

theorem fastPosted_live (t : CtranIbVirtualConn) (kind : OpKind) (a : OpArgs) (lkeys : List ℕ)
    (k : OpKind) : (t.fastPosted kind a lkeys).live k = t.live k := by
  rcases fastPosted_queues t kind a lkeys k with ⟨hpend, hout⟩
  rw [live, hpend, hout]
  rfl

theorem Consistent.fastPosted (h : t.Consistent) (hlive : t.live kind = []) (a : OpArgs)
    (lkeys : List ℕ) : (t.fastPosted kind a lkeys).Consistent where
  queues q := by
    change t.pendingWqeQs_ q = _
    rw [h.queues q, fastPosted_wire, List.filter_append, List.filter_singleton]
    simp [newFast]
  fasts k := by
    rw [fastPosted_wire, List.filter_append, List.map_append, List.filter_singleton]
    simp only [newFast_kind]
    by_cases hk : k = kind
    · subst hk
      rw [fastPosted_ops_self, List.map_append, h.fasts k]
      simp [newFast]
    · rw [fastPosted_ops_of_ne t a lkeys hk, h.fasts k]
      simp [Ne.symm hk]
  fastQp p hp hfast := by
    rw [fastPosted_wire, List.mem_append, List.mem_singleton] at hp
    rcases hp with hp | rfl
    · exact h.fastQp p hp hfast
    · rfl
  fastFirst := by
    rw [fastPosted_wire, List.pairwise_append]
    refine ⟨h.fastFirst, List.pairwise_singleton .., ?_⟩
    intro p hp p' hp' _ hkind
    rw [List.mem_singleton] at hp'
    rw [hp', newFast_kind] at hkind
    cases hfast : p.fast with
    | true => rfl
    | false =>
      have hmem := h.owned p hp hfast
      rw [hkind, liveIds, hlive] at hmem
      cases hmem
  owned p hp hfast := by
    rw [liveIds, fastPosted_live]
    rw [fastPosted_wire, List.mem_append, List.mem_singleton] at hp
    rcases hp with hp | rfl
    · exact h.owned p hp hfast
    · cases hfast
  counted k op hop := by
    rw [fastPosted_live] at hop
    rw [inFlight, fastPosted_wire, List.countP_append, List.countP_singleton]
    simpa [Posted.isOf_iff, newFast, inFlight] using h.counted k op hop
  sorted k := by
    rw [liveIds, fastPosted_live]
    exact h.sorted k
  fresh k id hid := by
    rw [liveIds, fastPosted_live] at hid
    exact Nat.lt_of_lt_of_le (h.fresh k id hid) (le_bump t kind k)
  sent k := by
    rw [(fastPosted_queues t kind a lkeys k).2]
    exact h.sent k
  within k := by
    rw [(fastPosted_queues t kind a lkeys k).1]
    exact h.within k
  robin := h.robin
  inRange p hp := by
    rw [fastPosted_wire, List.mem_append, List.mem_singleton] at hp
    rcases hp with hp | rfl
    · exact h.inRange p hp
    · exact t.cfg.maxNumQps_pos

/-! ### A completion is taken -/

/-- What is left after the completion of a regular work request, before anything follows from it. -/
def retireWqe (t : CtranIbVirtualConn) (p : Posted) : CtranIbVirtualConn :=
  setOps { t with
    wire := t.wire.eraseP (·.qpIdx = p.qpIdx)
    pendingWqeQs_ := Function.update t.pendingWqeQs_ p.qpIdx (t.pendingWqeQs_ p.qpIdx).tail }
    p.kind (OpQueues.retire · p.id)

/-- The same for the fast path, whose operation is done. -/
def retireFast (t : CtranIbVirtualConn) (p : Posted) (f : FastOpInfo) (rest : List FastOpInfo) :
    CtranIbVirtualConn :=
  (completeReq { t with wire := t.wire.eraseP (·.qpIdx = p.qpIdx) } (.op p.kind f.id)
    f.req).setOps p.kind fun q => { q with fast := rest }

variable {p : Posted} {f : FastOpInfo} {fs : List FastOpInfo}

theorem retireWqe_ops_self (t : CtranIbVirtualConn) (p : Posted) :
    (t.retireWqe p).ops p.kind = { t.ops p.kind with
      pending := (t.ops p.kind).pending.map (OpInfo.retire p.id)
      outstanding := (t.ops p.kind).outstanding.map (OpInfo.retire p.id) } :=
  Function.update_self ..

theorem retireWqe_ops_of_ne (t : CtranIbVirtualConn) (p : Posted) (h : k ≠ p.kind) :
    (t.retireWqe p).ops k = t.ops k := Function.update_of_ne h ..

theorem retireWqe_live_self (t : CtranIbVirtualConn) (p : Posted) :
    (t.retireWqe p).live p.kind = (t.live p.kind).map (OpInfo.retire p.id) := by
  simp only [live, retireWqe_ops_self, List.map_append]

theorem retireWqe_liveIds (t : CtranIbVirtualConn) (p : Posted) (k : OpKind) :
    (t.retireWqe p).liveIds k = t.liveIds k := by
  by_cases hk : k = p.kind
  · subst hk
    rw [liveIds, retireWqe_live_self, List.map_map]
    exact List.map_congr_left fun op _ => OpInfo.id_retire ..
  · rw [liveIds, live, retireWqe_ops_of_ne t p hk]
    rfl

theorem Consistent.retireWqe (h : t.Consistent)
    (hp : t.wire.find? (·.qpIdx = p.qpIdx) = some p) (hfast : p.fast = false) :
    (t.retireWqe p).Consistent where
  queues q := by
    by_cases hq : q = p.qpIdx
    · have hqueue : (t.retireWqe p).pendingWqeQs_ p.qpIdx = (t.pendingWqeQs_ p.qpIdx).tail :=
        Function.update_self ..
      rw [hq, hqueue, h.queues, filter_eq_cons_of_find? hp]
      · rfl
      · simp [hfast]
      · simp
    · have hqueue : (t.retireWqe p).pendingWqeQs_ q = t.pendingWqeQs_ q :=
        Function.update_of_ne hq ..
      rw [hqueue, h.queues]
      change _ = ((t.wire.eraseP _).filter _).map _
      rw [filter_eraseP_of_not hp]
      simp [Ne.symm hq]
  fasts k := by
    have hops : ((t.retireWqe p).ops k).fast = (t.ops k).fast := by
      by_cases hk : k = p.kind
      · subst hk
        rw [retireWqe_ops_self]
      · rw [retireWqe_ops_of_ne t p hk]
    rw [hops, h.fasts k]
    change _ = ((t.wire.eraseP _).filter _).map _
    rw [filter_eraseP_of_not hp]
    simp [hfast]
  fastQp p' hp' := h.fastQp p' (List.mem_of_mem_eraseP hp')
  fastFirst := h.fastFirst.sublist (List.eraseP_sublist ..)
  owned p' hp' hf := by
    rw [retireWqe_liveIds]
    exact h.owned p' (List.mem_of_mem_eraseP hp') hf
  counted k op hop := by
    change op.outstandingWqes = (t.wire.eraseP _).countP _
    by_cases hk : k = p.kind
    · subst hk
      rw [retireWqe_live_self, List.mem_map] at hop
      rcases hop with ⟨op, hop, rfl⟩
      have hcount := h.counted p.kind op hop
      rw [OpInfo.id_retire, OpInfo.retire]
      by_cases hid : op.id = p.id
      · have hof : p.isOf p.kind op.id := Posted.isOf_iff.mpr ⟨hfast, rfl, hid.symm⟩
        have hless := countP_eraseP_of_mem hp hof
        rw [if_pos hid]
        change op.outstandingWqes - 1 = _
        rw [hcount, inFlight, ← hless, Nat.add_sub_cancel]
      · rw [if_neg hid, hcount, inFlight, countP_eraseP_of_not hp]
        simp [Posted.isOf, Ne.symm hid]
    · rw [live, retireWqe_ops_of_ne t p hk] at hop
      rw [h.counted k op hop, inFlight, countP_eraseP_of_not hp]
      simp [Posted.isOf, Ne.symm hk]
  sorted k := by
    rw [retireWqe_liveIds]
    exact h.sorted k
  fresh k := by
    rw [retireWqe_liveIds]
    exact h.fresh k
  sent k op hop := by
    by_cases hk : k = p.kind
    · subst hk
      rw [retireWqe_ops_self, List.mem_map] at hop
      rcases hop with ⟨op, hop, rfl⟩
      have hsent := h.sent _ op hop
      unfold OpInfo.retire
      split <;> exact hsent
    · rw [retireWqe_ops_of_ne t p hk] at hop
      exact h.sent k op hop
  within k op hop := by
    by_cases hk : k = p.kind
    · subst hk
      rw [retireWqe_ops_self, List.mem_map] at hop
      rcases hop with ⟨op, hop, rfl⟩
      have hwithin := h.within _ op hop
      unfold OpInfo.retire
      split <;> exact hwithin
    · rw [retireWqe_ops_of_ne t p hk] at hop
      exact h.within k op hop
  robin := h.robin
  inRange p' hp' := h.inRange p' (List.mem_of_mem_eraseP hp')

theorem retireFast_ops_self (t : CtranIbVirtualConn) (p : Posted) (f : FastOpInfo)
    (fs : List FastOpInfo) : (t.retireFast p f fs).ops p.kind = { t.ops p.kind with fast := fs } :=
  Function.update_self ..

theorem retireFast_ops_of_ne (t : CtranIbVirtualConn) (p : Posted) (f : FastOpInfo)
    (fs : List FastOpInfo) (h : k ≠ p.kind) : (t.retireFast p f fs).ops k = t.ops k :=
  Function.update_of_ne h ..

theorem retireFast_queues (t : CtranIbVirtualConn) (p : Posted) (f : FastOpInfo)
    (fs : List FastOpInfo) (k : OpKind) :
    ((t.retireFast p f fs).ops k).pending = (t.ops k).pending ∧
      ((t.retireFast p f fs).ops k).outstanding = (t.ops k).outstanding := by
  by_cases hk : k = p.kind
  · subst hk
    rw [retireFast_ops_self]
    exact ⟨rfl, rfl⟩
  · rw [retireFast_ops_of_ne t p f fs hk]
    exact ⟨rfl, rfl⟩

theorem Consistent.retireFast (h : t.Consistent)
    (hp : t.wire.find? (·.qpIdx = p.qpIdx) = some p) (hfast : p.fast = true)
    (hf : (t.ops p.kind).fast = f :: fs) : (t.retireFast p f fs).Consistent := by
  have hlive : ∀ k, (t.retireFast p f fs).live k = t.live k := by
    intro k
    rcases retireFast_queues t p f fs k with ⟨hpend, hout⟩
    rw [live, hpend, hout]
    rfl
  have hmem : p ∈ t.wire := List.mem_of_find?_eq_some hp
  have hcounts : ∀ k id, (t.retireFast p f fs).inFlight k id = t.inFlight k id := by
    intro k id
    exact countP_eraseP_of_not hp (by simp [Posted.isOf, hfast])
  exact {
    queues := by
      intro q
      change t.pendingWqeQs_ q = ((t.wire.eraseP _).filter _).map _
      rw [h.queues, filter_eraseP_of_not hp]
      simp [hfast]
    fasts := by
      intro k
      change _ = ((t.wire.eraseP _).filter _).map _
      by_cases hk : k = p.kind
      · subst hk
        have hids := h.fasts p.kind
        rw [hf, filter_eq_cons_of_find? hp (by simp [hfast]), List.map_cons, List.map_cons,
          List.cons.injEq] at hids
        · rw [retireFast_ops_self]
          exact hids.2
        · intro p' hp' hkeep
          rw [Bool.and_eq_true] at hkeep
          simp [h.fastQp p hmem hfast, h.fastQp p' hp' hkeep.1]
      · rw [retireFast_ops_of_ne t p f fs hk, h.fasts k, filter_eraseP_of_not hp]
        simp [Ne.symm hk]
    fastQp := fun p' hp' => h.fastQp p' (List.mem_of_mem_eraseP hp')
    fastFirst := h.fastFirst.sublist (List.eraseP_sublist ..)
    owned := by
      intro p' hp' hf'
      rw [liveIds, hlive]
      exact h.owned p' (List.mem_of_mem_eraseP hp') hf'
    counted := by
      intro k op hop
      rw [hlive] at hop
      rw [hcounts]
      exact h.counted k op hop
    sorted := by
      intro k
      rw [liveIds, hlive]
      exact h.sorted k
    fresh := by
      intro k
      rw [liveIds, hlive]
      exact h.fresh k
    sent := by
      intro k
      rw [(retireFast_queues t p f fs k).2]
      exact h.sent k
    within := by
      intro k
      rw [(retireFast_queues t p f fs k).1]
      exact h.within k
    robin := h.robin
    inRange := fun p' hp' => h.inRange p' (List.mem_of_mem_eraseP hp') }

/-! ### An operation is burned down -/

/-- The front operation leaves the outstanding ones. -/
def burnOne (t : CtranIbVirtualConn) (kind : OpKind) (op : OpInfo) (rest : List OpInfo) :
    CtranIbVirtualConn :=
  (t.finishOp kind op).setOps kind fun q => { q with outstanding := rest }

theorem burnOne_ops_self (t : CtranIbVirtualConn) (kind : OpKind) (op : OpInfo)
    (rest : List OpInfo) :
    (t.burnOne kind op rest).ops kind = { t.ops kind with outstanding := rest } := by
  rw [burnOne, ops_setOps_self, (sameData_finishOp t kind op).ops]

theorem burnOne_ops_of_ne (t : CtranIbVirtualConn) (op : OpInfo) (rest : List OpInfo)
    (h : k ≠ kind) : (t.burnOne kind op rest).ops k = t.ops k := by
  rw [burnOne, ops_setOps_of_ne _ _ h, (sameData_finishOp t kind op).ops]

theorem Consistent.dropFront (h : t.Consistent) (hout : (t.ops kind).outstanding = op :: rest)
    (hzero : op.outstandingWqes = 0) :
    (t.setOps kind fun q => { q with outstanding := rest }).Consistent := by
  have hself : t.live kind =
      op :: (t.setOps kind fun q => { q with outstanding := rest }).live kind := by
    simp only [live, ops_setOps_self, hout, List.cons_append]
  have hother : ∀ k, k ≠ kind →
      (t.setOps kind fun q => { q with outstanding := rest }).live k = t.live k := by
    intro k hk
    simp only [live, ops_setOps_of_ne t _ hk]
  have hsub : ∀ k op', op' ∈ (t.setOps kind fun q => { q with outstanding := rest }).live k →
      op' ∈ t.live k := by
    intro k op' hop'
    by_cases hk : k = kind
    · subst hk
      rw [hself]
      exact List.mem_cons_of_mem _ hop'
    · rwa [hother k hk] at hop'
  exact { h with
    fasts := by
      intro k
      by_cases hk : k = kind
      · subst hk
        rw [ops_setOps_self]
        exact h.fasts k
      · rw [ops_setOps_of_ne t _ hk]
        exact h.fasts k
    owned := by
      intro p hp hf
      have hmem := h.owned p hp hf
      by_cases hk : p.kind = kind
      · rw [hk, liveIds, hself, List.map_cons, List.mem_cons] at hmem
        rcases hmem with hid | hmem
        · have hnone : t.inFlight kind op.id = 0 := by
            rw [← h.counted kind op (by simp [hself]), hzero]
          rw [inFlight, List.countP_eq_zero] at hnone
          exact absurd (Posted.isOf_iff.mpr ⟨hf, hk, hid⟩) (hnone p hp)
        · rwa [hk]
      · rw [liveIds, hother _ hk]
        exact hmem
    counted := fun k op' hop' => h.counted k op' (hsub k op' hop')
    sorted := by
      intro k
      by_cases hk : k = kind
      · subst hk
        have hsorted := h.sorted k
        rw [liveIds, hself, List.map_cons, List.pairwise_cons] at hsorted
        exact hsorted.2
      · rw [liveIds, hother k hk]
        exact h.sorted k
    fresh := by
      intro k id hid
      rcases List.mem_map.mp hid with ⟨op', hop', rfl⟩
      exact h.fresh k _ (List.mem_map_of_mem (hsub k op' hop'))
    sent := by
      intro k op' hop'
      by_cases hk : k = kind
      · subst hk
        rw [ops_setOps_self] at hop'
        exact h.sent k op' (by simp [hout, show op' ∈ rest from hop'])
      · rw [ops_setOps_of_ne t _ hk] at hop'
        exact h.sent k op' hop'
    within := by
      intro k op' hop'
      by_cases hk : k = kind
      · subst hk
        rw [ops_setOps_self] at hop'
        exact h.within k op' hop'
      · rw [ops_setOps_of_ne t _ hk] at hop'
        exact h.within k op' hop' }

theorem Consistent.burnOne (h : t.Consistent) (hout : (t.ops kind).outstanding = op :: rest)
    (hzero : op.outstandingWqes = 0) : (t.burnOne kind op rest).Consistent := by
  have hsame := sameData_finishOp t kind op
  apply (h.of_sameData hsame).dropFront _ hzero
  rw [hsame.ops]
  exact hout

end CtranIbVirtualConn
end TorchComms.CtranIb
