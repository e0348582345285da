import TorchComms.CtranIb.SprayNotices
import Mathlib.Tactic.Abel

/-! # Nothing is left behind on an idle connection

A pending operation is posted by the completions of its own kind. Where one is on the wire whenever
something is pending, a connection whose wires are empty has no operation left, and has completed
every request once.
-/
namespace TorchComms.CtranIb
namespace CtranIbVirtualConn

open Foundation Relation

variable {t t' : CtranIbVirtualConn} {kind k : OpKind} {op : OpInfo} {rest : List OpInfo}
  {p : Posted} {f : FastOpInfo} {fs : List FastOpInfo} {n : NotifyInfo} {ns : List NotifyInfo}

/-! ### Requests -/

def reqOf (owner : Owner) (req : Option ℕ) : List (Owner × ℕ) := (req.map (owner, ·)).toList

def reqsOf (kind : OpKind) (ops : List OpInfo) : List (Owner × ℕ) :=
  ops.filterMap fun op => op.req.map (Owner.op kind op.id, ·)

def fastReqs (kind : OpKind) (fs : List FastOpInfo) : List (Owner × ℕ) :=
  fs.filterMap fun f => f.req.map (Owner.op kind f.id, ·)

/-- The requests that the operations of a kind still hold. -/
def opReqs (t : CtranIbVirtualConn) (kind : OpKind) : Multiset (Owner × ℕ) :=
  ↑(reqsOf kind (t.live kind) ++ fastReqs kind (t.ops kind).fast)

def noticeReqs (ns : List NotifyInfo) : List (Owner × ℕ) :=
  ns.filterMap fun n => n.req.map (n.owner, ·)

def heldNotices (t : CtranIbVirtualConn) : Multiset (Owner × ℕ) :=
  ↑(noticeReqs (t.outstandingNotifies_ ++ t.pendingNotifies_))

/-- Every request that is not complete. -/
def held (t : CtranIbVirtualConn) : Multiset (Owner × ℕ) :=
  t.opReqs .put + t.opReqs .get + t.heldNotices

/-- Each request is held by one operation until it is complete. -/
def Balanced (t : CtranIbVirtualConn) : Prop :=
  (t.completed : Multiset (Owner × ℕ)) + t.held = t.requests

theorem balanced_init (cfg : VcConfig) : Balanced { cfg := cfg } := rfl

theorem held_change (kind : OpKind) {x y z w : Multiset (Owner × ℕ)}
    (hself : t'.opReqs kind + x = t.opReqs kind + y)
    (hother : ∀ k, k ≠ kind → t'.opReqs k = t.opReqs k)
    (hnotices : t'.heldNotices + z = t.heldNotices + w) : t'.held + (x + z) = t.held + (y + w) := by
  have hsum : t'.opReqs .put + t'.opReqs .get + x = t.opReqs .put + t.opReqs .get + y := by
    cases kind with
    | put => rw [hother .get (by decide), add_right_comm, hself, add_right_comm]
    | get => rw [hother .put (by decide), add_assoc, hself, add_assoc]
  calc t'.held + (x + z)
      = (t'.opReqs .put + t'.opReqs .get + x) + (t'.heldNotices + z) := by
        rw [held]
        abel
    _ = (t.opReqs .put + t.opReqs .get + y) + (t.heldNotices + w) := by rw [hsum, hnotices]
    _ = t.held + (y + w) := by
        rw [held]
        abel

theorem Balanced.of_held (h : t.Balanced) {a b : List (Owner × ℕ)}
    (hcompleted : t'.completed = t.completed ++ a) (hrequests : t'.requests = t.requests ++ b)
    (hheld : t'.held + ↑a = t.held + ↑b) : t'.Balanced := by
  rw [Balanced, hcompleted, hrequests, ← Multiset.coe_add, ← Multiset.coe_add, add_assoc,
    add_comm (a : Multiset (Owner × ℕ)), hheld, ← add_assoc, h]

theorem Balanced.of_same (h : t.Balanced) (hops : ∀ k, t'.opReqs k = t.opReqs k)
    (hnotices : t'.heldNotices = t.heldNotices) (hcompleted : t'.completed = t.completed)
    (hrequests : t'.requests = t.requests) : t'.Balanced := by
  rw [Balanced, held, hops, hops, hnotices, hcompleted, hrequests]
  exact h

theorem reqsOf_append (kind : OpKind) (ops ops' : List OpInfo) :
    reqsOf kind (ops ++ ops') = reqsOf kind ops ++ reqsOf kind ops' := List.filterMap_append ..

theorem reqsOf_cons (kind : OpKind) (op : OpInfo) (ops : List OpInfo) :
    reqsOf kind (op :: ops) = reqOf (.op kind op.id) op.req ++ reqsOf kind ops := by
  cases h : op.req <;> simp [reqsOf, reqOf, h]

theorem opReqs_postWqe (hp : (t.ops kind).pending = op :: rest) (i : ℕ) (k : OpKind) :
    (t.postWqe kind i op rest).opReqs k = t.opReqs k := by
  by_cases hk : k = kind
  · subst hk
    have hsame : (t.cfg.advance op).req = op.req ∧ (t.cfg.advance op).id = op.id := ⟨rfl, rfl⟩
    rw [opReqs, postWqe_live_self, postWqe_ops_self, OpQueues.fast_advance, reqsOf_append,
      reqsOf_cons, hsame.1, hsame.2, ← reqsOf_cons, ← reqsOf_append, ← live_eq hp]
    rfl
  · rw [opReqs, live, postWqe_ops_of_ne hk]
    rfl

theorem opReqs_retireWqe (t : CtranIbVirtualConn) (p : Posted) (k : OpKind) :
    (t.retireWqe p).opReqs k = t.opReqs k := by
  by_cases hk : k = p.kind
  · subst hk
    have hreqs : reqsOf p.kind ((t.live p.kind).map (OpInfo.retire p.id)) =
        reqsOf p.kind (t.live p.kind) := by
      rw [reqsOf, List.filterMap_map]
      apply List.filterMap_congr
      intro op _
      have hreq : (op.retire p.id).req = op.req := by
        unfold OpInfo.retire
        split <;> rfl
      simp only [Function.comp_apply, OpInfo.id_retire, hreq]
    rw [opReqs, retireWqe_live_self, hreqs, retireWqe_ops_self]
    rfl
  · rw [opReqs, live, retireWqe_ops_of_ne t p hk]
    rfl

theorem Balanced.pushed (h : t.Balanced) (kind : OpKind) (a : OpArgs) (lkeys : List ℕ) :
    (t.pushed kind a lkeys).Balanced := by
  apply h.of_held (a := []) (b := reqOf (.op kind (t.opId_ kind)) a.req)
  · rw [List.append_nil]
    rfl
  · rfl
  · have hself : (t.pushed kind a lkeys).opReqs kind + 0 =
        t.opReqs kind + ↑(reqOf (.op kind (t.opId_ kind)) a.req) := by
      have hnew : reqsOf kind [t.newOp kind a lkeys] = reqOf (.op kind (t.opId_ kind)) a.req := by
        rw [reqsOf_cons]
        exact List.append_nil _
      rw [opReqs, pushed_live_self, pushed_ops_self, reqsOf_append, hnew, opReqs]
      simp only [← Multiset.coe_add, add_zero]
      abel
    have hother : ∀ k, k ≠ kind → (t.pushed kind a lkeys).opReqs k = t.opReqs k := by
      intro k hk
      rw [opReqs, live, pushed_ops_of_ne t a lkeys hk]
      rfl
    simpa using held_change kind hself hother (z := 0) (w := 0) rfl

theorem Balanced.fastPosted (h : t.Balanced) (kind : OpKind) (a : OpArgs) (lkeys : List ℕ) :
    (t.fastPosted kind a lkeys).Balanced := by
  apply h.of_held (a := []) (b := reqOf (.op kind (t.opId_ kind)) a.req)
  · rw [List.append_nil]
    rfl
  · rfl
  · have hself : (t.fastPosted kind a lkeys).opReqs kind + 0 =
        t.opReqs kind + ↑(reqOf (.op kind (t.opId_ kind)) a.req) := by
      have hnew : fastReqs kind ((t.ops kind).fast ++ [⟨t.opId_ kind, a.req⟩]) =
          fastReqs kind (t.ops kind).fast ++ reqOf (.op kind (t.opId_ kind)) a.req := by
        rw [fastReqs, List.filterMap_append]
        cases hr : a.req <;> simp [fastReqs, reqOf]
      rw [opReqs, fastPosted_live, fastPosted_ops_self, hnew, ← List.append_assoc,
        ← Multiset.coe_add, add_zero]
      rfl
    have hother : ∀ k, k ≠ kind → (t.fastPosted kind a lkeys).opReqs k = t.opReqs k := by
      intro k hk
      rw [opReqs, fastPosted_live, fastPosted_ops_of_ne t a lkeys hk]
      rfl
    simpa using held_change kind hself hother (z := 0) (w := 0) rfl

theorem Balanced.retireFast (h : t.Balanced) (hf : (t.ops p.kind).fast = f :: fs) :
    (t.retireFast p f fs).Balanced := by
  apply h.of_held (a := reqOf (.op p.kind f.id) f.req) (b := [])
  · rfl
  · rw [List.append_nil]
    rfl
  · have hself : (t.retireFast p f fs).opReqs p.kind + ↑(reqOf (.op p.kind f.id) f.req) =
        t.opReqs p.kind + 0 := by
      have hgone : fastReqs p.kind (f :: fs) =
          reqOf (.op p.kind f.id) f.req ++ fastReqs p.kind fs := by
        cases hr : f.req <;> simp [fastReqs, reqOf, hr]
      rcases retireFast_queues t p f fs p.kind with ⟨hpend, hout⟩
      rw [opReqs, live, hpend, hout, retireFast_ops_self, opReqs, hf, hgone, live]
      simp only [← Multiset.coe_add, add_zero]
      abel
    have hother : ∀ k, k ≠ p.kind → (t.retireFast p f fs).opReqs k = t.opReqs k := by
      intro k hk
      rw [opReqs, live, retireFast_ops_of_ne t p f fs hk]
      rfl
    simpa using held_change p.kind hself hother (z := 0) (w := 0) rfl

/-! ### Notifications -/

theorem noticeReqs_append (ns ns' : List NotifyInfo) :
    noticeReqs (ns ++ ns') = noticeReqs ns ++ noticeReqs ns' := List.filterMap_append ..

theorem noticeReqs_cons (n : NotifyInfo) (ns : List NotifyInfo) :
    noticeReqs (n :: ns) = reqOf n.owner n.req ++ noticeReqs ns := by
  cases h : n.req <;> simp [noticeReqs, reqOf, h]

theorem opReqs_of_sameData (h : SameData t t') (k : OpKind) : t'.opReqs k = t.opReqs k := by
  rw [opReqs, live, h.ops]
  rfl

theorem heldNotices_queueNotify (t : CtranIbVirtualConn) (req putId : Option ℕ) :
    (t.queueNotify req putId).heldNotices + 0 = t.heldNotices +
      ↑(reqOf (NotifyInfo.owner ⟨t.nextWrId_, req, putId⟩) req) := by
  have hframe := (tryPostImmNotifyMsg_frame (t.enqueueNotify req putId)).1
  have hrest : (t.enqueueNotify req putId).outstandingNotifies_ ++
      (t.enqueueNotify req putId).pendingNotifies_ =
        t.outstandingNotifies_ ++ t.pendingNotifies_ ++ [⟨t.nextWrId_, req, putId⟩] :=
    (List.append_assoc ..).symm
  have hnew : noticeReqs [⟨t.nextWrId_, req, putId⟩] =
      reqOf (NotifyInfo.owner ⟨t.nextWrId_, req, putId⟩) req := by
    rw [noticeReqs_cons]
    exact List.append_nil _
  rw [heldNotices, queueNotify, hframe, hrest, noticeReqs_append, hnew, ← Multiset.coe_add, add_zero]
  rfl

theorem Balanced.notify (h : t.Balanced) (req : Option ℕ) : (t.notify req).Balanced := by
  have hframe := tryPostImmNotifyMsg_frame ((t.acceptNotify req).enqueueNotify req none)
  rcases hframe with ⟨_, _, _, _, hcompleted, _, hrequests⟩
  apply h.of_held (a := []) (b := reqOf (.notify t.nextWrId_) req)
  · rw [List.append_nil]
    exact hcompleted
  · exact hrequests
  · have hops : ∀ k, (t.notify req).opReqs k = t.opReqs k :=
      opReqs_of_sameData (sameData_notify t req)
    have hnotices : (t.notify req).heldNotices + 0 =
        t.heldNotices + ↑(reqOf (.notify t.nextWrId_) req) :=
      heldNotices_queueNotify (t.acceptNotify req) req none
    simpa using held_change .put (x := 0) (y := 0) (congrArg (· + 0) (hops .put))
      (fun k _ => hops k) hnotices

theorem Balanced.noticed (h : t.Balanced) (hout : t.outstandingNotifies_ = n :: ns) :
    (t.noticed n ns).Balanced := by
  have hframe := tryPostImmNotifyMsg_frame (completeReq { t with
    notifyWire := t.notifyWire.tail
    outstandingNotifies_ := ns
    notified := t.notified ++ [n] } n.owner n.req)
  rcases hframe with ⟨hrest, _, _, _, hcompleted, _, hrequests⟩
  have hsame := sameData_noticed t n ns
  apply h.of_held (a := reqOf n.owner n.req) (b := [])
  · exact hcompleted
  · rw [List.append_nil]
    exact hrequests
  · have hnotices : (t.noticed n ns).heldNotices + ↑(reqOf n.owner n.req) = t.heldNotices + 0 := by
      rw [heldNotices, CtranIbVirtualConn.noticed, hrest, heldNotices, hout, List.cons_append,
        noticeReqs_cons, ← Multiset.coe_add, add_zero, add_comm]
      rfl
    have hops := opReqs_of_sameData hsame
    simpa using held_change .put (x := 0) (y := 0) (congrArg (· + 0) (hops .put))
      (fun k _ => hops k) hnotices

theorem Balanced.burnOne (h : t.Balanced) (hknown : t.Known)
    (hout : (t.ops kind).outstanding = op :: rest) : (t.burnOne kind op rest).Balanced := by
  have hself : (t.burnOne kind op rest).opReqs kind + ↑(reqOf (.op kind op.id) op.req) =
      t.opReqs kind + 0 := by
    have hgone : reqsOf kind (op :: (t.burnOne kind op rest).live kind) =
        reqOf (.op kind op.id) op.req ++ reqsOf kind ((t.burnOne kind op rest).live kind) :=
      reqsOf_cons ..
    rw [opReqs, opReqs, (burnOne_live hout).1, hgone, burnOne_ops_self]
    simp only [← Multiset.coe_add, add_zero]
    abel
  have hother : ∀ k, k ≠ kind → (t.burnOne kind op rest).opReqs k = t.opReqs k := by
    intro k hk
    rw [opReqs, live, burnOne_ops_of_ne t op rest hk]
    rfl
  by_cases hspray : op.vcMode = .spray ∧ op.notify
  · have hk : kind = .put := by
      cases kind with
      | put => rfl
      | get =>
        have hget := hknown.gets op (by simp [live, hout])
        rw [hspray.2] at hget
        cases hget
    subst hk
    have hfinish : t.finishOp .put op = t.queueNotify op.req (some op.id) := by
      rw [finishOp, if_pos hspray]
    have hframe := tryPostImmNotifyMsg_frame (t.enqueueNotify op.req (some op.id))
    rw [← queueNotify, ← hfinish] at hframe
    rcases hframe with ⟨_, _, _, _, hcompleted, _, hrequests⟩
    have hnotices := heldNotices_queueNotify t op.req (some op.id)
    rw [← hfinish] at hnotices
    apply h.of_held (a := []) (b := [])
    · rw [List.append_nil]
      exact hcompleted
    · rw [List.append_nil]
      exact hrequests
    · have hchange := held_change .put hself hother hnotices
      rw [add_zero, zero_add] at hchange
      simpa using add_right_cancel hchange
  · have hfinish : t.finishOp kind op = t.completeReq (.op kind op.id) op.req := by
      rw [finishOp, if_neg hspray]
    have hburned : t.burnOne kind op rest = (t.completeReq (.op kind op.id) op.req).setOps kind
        fun q => { q with outstanding := rest } := by
      rw [CtranIbVirtualConn.burnOne, hfinish]
    apply h.of_held (a := reqOf (.op kind op.id) op.req) (b := [])
    · rw [hburned]
      rfl
    · rw [hburned, List.append_nil]
      rfl
    · have hnotices : (t.burnOne kind op rest).heldNotices + 0 = t.heldNotices + 0 := by
        rw [hburned]
        rfl
      simpa using held_change kind hself hother hnotices

theorem Balanced.change (h : t.Balanced) (hknown : t.Known) (hchange : Change t t') :
    t'.Balanced := by
  cases hchange with
  | posting _ kind hpost =>
    cases hpost with
    | robin i hi => exact h
    | wqe i op rest hi hp => exact h.of_same (opReqs_postWqe hp i) rfl rfl rfl
  | burning _ kind hburn =>
    cases hburn with
    | one op rest hfast hout hzero hlen => exact h.burnOne hknown hout
  | bump kind => exact h
  | push kind a lkeys hget => exact h.pushed kind a lkeys
  | fast kind a lkeys hget hvalid => exact h.fastPosted kind a lkeys
  | wqe p hp hfast => exact h.of_same (opReqs_retireWqe t p) rfl rfl rfl
  | fastDone p f fs hp hfast hf => exact h.retireFast hf
  | notify req => exact h.notify req
  | noticed n ns hout => exact h.noticed hout

/-! ### What keeps the pending operations going -/

/-- A work request of the kind is on the wire; its completion posts what is pending. -/
def OnWire (t : CtranIbVirtualConn) (kind : OpKind) : Prop := ∃ p ∈ t.wire, p.kind = kind

/-- Something will go on with each kind of operations that are not done. -/
structure Flowing (t : CtranIbVirtualConn) : Prop where
  burned : ∀ kind, t.Burned kind
  served : ∀ kind, (t.ops kind).pending ≠ [] → t.OnWire kind

theorem flowing_init (cfg : VcConfig) : Flowing { cfg := cfg } where
  burned _ _ _ h := nomatch h
  served _ h := absurd rfl h

theorem Burned.of_ops (h : t.Burned k) (hops : t'.ops k = t.ops k) : t'.Burned k := by
  rw [Burned, hops]
  exact h

theorem Burned.posting (h : t.Burned k) (hpost : Posting kind t t') : t'.Burned k := by
  cases hpost with
  | robin i hi => exact h
  | wqe i op rest hi hp =>
    by_cases hk : k = kind
    · subst hk
      intro hfast op' hop'
      rw [postWqe_ops_self] at hfast hop'
      rw [OpQueues.fast_advance] at hfast
      rw [OpQueues.advance] at hop'
      split at hop'
      · cases hout : (t.ops k).outstanding with
        | nil =>
          rw [hout] at hop'
          cases hop'
          exact Nat.succ_pos _
        | cons op'' rest' =>
          rw [hout] at hop'
          cases hop'
          exact h hfast op' (by simp [hout])
      · exact h hfast op' hop'
    · exact h.of_ops (postWqe_ops_of_ne hk i)

theorem Burned.postings (h : t.Burned k) (hpost : ReflTransGen (Posting kind) t t') :
    t'.Burned k := by
  induction hpost with
  | refl => exact h
  | tail _ hlast ih => exact ih.posting hlast

theorem OnWire.postings (h : t.OnWire k) (hpost : ReflTransGen (Posting kind) t t') :
    t'.OnWire k := by
  induction hpost with
  | refl => exact h
  | tail _ hlast ih =>
    cases hlast with
    | robin i hi => exact ih
    | wqe i op rest hi hp =>
      rcases ih with ⟨p, hp, hk⟩
      exact ⟨p, List.mem_append_left _ hp, hk⟩

theorem onWire_postWqe (t : CtranIbVirtualConn) (kind : OpKind) (i : ℕ) (op : OpInfo)
    (rest : List OpInfo) : (t.postWqe kind i op rest).OnWire kind :=
  ⟨t.newWqe kind i op, by simp [postWqe_wire], newWqe_kind ..⟩

theorem onWire_of_backlog (hpost : ReflTransGen (Posting kind) t t')
    (hless : t'.backlog kind < t.backlog kind) : t'.OnWire kind := by
  induction hpost with
  | refl => exact absurd hless (Nat.lt_irrefl _)
  | tail _ hlast ih =>
    cases hlast with
    | robin i hi => exact ih hless
    | wqe i op rest hi hp => exact onWire_postWqe ..

theorem ops_postings (hpost : ReflTransGen (Posting kind) t t') (hk : k ≠ kind) :
    t'.ops k = t.ops k := by
  induction hpost with
  | refl => rfl
  | tail _ hlast ih =>
    cases hlast with
    | robin i hi => exact ih
    | wqe i op rest hi hp => exact (postWqe_ops_of_ne hk i).trans ih

theorem ops_burnings (hburn : ReflTransGen (Burning kind) t t') (hk : k ≠ kind) :
    t'.ops k = t.ops k := by
  induction hburn with
  | refl => rfl
  | tail _ hlast ih =>
    cases hlast with
    | one op rest => exact (burnOne_ops_of_ne _ op rest hk).trans ih

theorem wire_burnings (hburn : ReflTransGen (Burning kind) t t') : t'.wire = t.wire := by
  induction hburn with
  | refl => rfl
  | tail _ hlast ih =>
    cases hlast with
    | one op rest => exact (sameData_finishOp _ kind op).wire.trans ih

variable {a : OpArgs}

theorem Flowing.pushed (h : t.Flowing) {lkeys : List ℕ}
    (hpost : ReflTransGen (Posting kind) (t.pushed kind a lkeys) t')
    (hserved : (t.ops kind).pending = [] → t.OnWire kind ∨
      t'.backlog kind < (t.pushed kind a lkeys).backlog kind) : t'.Flowing where
  burned k := by
    apply Burned.postings _ hpost
    by_cases hk : k = kind
    · subst hk
      intro hfast op hop
      rw [pushed_ops_self] at hfast hop
      exact h.burned k hfast op hop
    · exact (h.burned k).of_ops (pushed_ops_of_ne t a lkeys hk)
  served k hne := by
    by_cases hk : k = kind
    · subst hk
      have hwire : t.OnWire k → t'.OnWire k := fun hw =>
        OnWire.postings (t := t.pushed k a lkeys) hw hpost
      by_cases hnil : (t.ops k).pending = []
      · rcases hserved hnil with hw | hless
        · exact hwire hw
        · exact onWire_of_backlog hpost hless
      · exact hwire (h.served k hnil)
    · rw [ops_postings hpost hk, pushed_ops_of_ne t a lkeys hk] at hne
      exact OnWire.postings (t := t.pushed kind a lkeys) (h.served k hne) hpost

theorem Flowing.fastPosted (h : t.Flowing) (hlive : t.live kind = []) (a : OpArgs)
    (lkeys : List ℕ) : (t.fastPosted kind a lkeys).Flowing where
  burned k := by
    by_cases hk : k = kind
    · subst hk
      intro hfast
      rw [fastPosted_ops_self] at hfast
      exact absurd hfast (by simp)
    · exact (h.burned k).of_ops (fastPosted_ops_of_ne t a lkeys hk)
  served k hne := by
    by_cases hk : k = kind
    · subst hk
      rw [live, List.append_eq_nil_iff] at hlive
      rw [fastPosted_ops_self] at hne
      exact absurd hlive.2 hne
    · rw [fastPosted_ops_of_ne t a lkeys hk] at hne
      rcases h.served k hne with ⟨p, hp, hpk⟩
      exact ⟨p, by simp [fastPosted_wire, hp], hpk⟩

theorem Flowing.dataCqe (h : t.Flowing) {t₁ t₂ : CtranIbVirtualConn}
    (hp : t.wire.find? (·.qpIdx = p.qpIdx) = some p) (htaking : Taking t p t₁)
    (hburn : ReflTransGen (Burning p.kind) t₁ t₂) (hburned : t₂.Burned p.kind)
    (hcons : t₂.Consistent) (hqueue : t₂.queueOnQp p.kind p.qpIdx = .ok t')
    (hpost : ReflTransGen (Posting p.kind) t₂ t') : t'.Flowing := by
  have hother : ∀ k, k ≠ p.kind → t₂.ops k = t.ops k := by
    intro k hk
    rw [ops_burnings hburn hk]
    cases htaking with
    | wqe hfast => exact retireWqe_ops_of_ne t p hk
    | fast f fs hfast hf => exact retireFast_ops_of_ne t p f fs hk
  have hwire : ∀ p' ∈ t.wire, p'.kind ≠ p.kind → p' ∈ t₂.wire := by
    intro p' hp' hk
    rw [wire_burnings hburn, taking_wire htaking]
    rcases split_of_find? hp with ⟨before, after, hl, _, _, herase⟩
    rw [herase]
    rw [hl, List.mem_append, List.mem_cons] at hp'
    rcases hp' with hp' | rfl | hp'
    · exact List.mem_append_left _ hp'
    · exact absurd rfl hk
    · exact List.mem_append_right _ hp'
  constructor
  · intro k
    apply Burned.postings _ hpost
    by_cases hk : k = p.kind
    · rw [hk]
      exact hburned
    · exact (h.burned k).of_ops (hother k hk)
  · intro k hne
    by_cases hk : k = p.kind
    · rw [hk] at hne ⊢
      cases hpend : (t₂.ops p.kind).pending with
      | nil =>
        rw [queueOnQp_nil hpend, Except.ok.injEq] at hqueue
        rw [← hqueue] at hne
        exact absurd hpend hne
      | cons op rest =>
        rw [queueOnQp_cons hcons.ready hpend, Except.ok.injEq] at hqueue
        rw [← hqueue]
        exact onWire_postWqe ..
    · rw [ops_postings hpost hk, hother k hk] at hne
      rcases h.served k hne with ⟨p', hp', hpk⟩
      exact OnWire.postings ⟨p', hwire p' hp' (by rw [hpk]; exact hk), hpk⟩ hpost

/-! ### Runs -/

/-- A regular operation is issued while a work request of its kind is on the wire, or one of the
QPs that it may use has room. -/
def Postable (t : CtranIbVirtualConn) : Op → Prop
  | .iput a false => a.ibRegElem = none ∨ t.OnWire .put ∨
      ∃ q ∈ t.opQps a.config, t.load .put q < t.opMaxMsgs a.config
  | .iget a false => a.ibRegElem = none ∨ t.OnWire .get ∨
      ∃ q ∈ t.opQps a.config, t.load .get q < t.opMaxMsgs a.config
  | _ => True

def Allowed (past : List Op) (t : CtranIbVirtualConn) (op : Op) : Prop :=
  WellFormed past t op ∧ t.Postable op

theorem Flowing.issue (h : t.Flowing) (hsound : t.Sound) {fast : Bool}
    (hpostable : fast = false → a.ibRegElem = none ∨ t.OnWire kind ∨
      ∃ q ∈ t.opQps a.config, t.load kind q < t.opMaxMsgs a.config) :
    ∃ r, t.issue kind a fast = .ok r ∧ r.2.Flowing := by
  cases ha : a.ibRegElem with
  | none => exact ⟨(.commSystemError, t), by simp [CtranIbVirtualConn.issue, ha], h⟩
  | some lkeys =>
    cases fast with
    | true =>
      rcases issue_fast ha kind with ⟨hvalid, hrun⟩ | ⟨_, hrun⟩
      · exact ⟨_, hrun, h.fastPosted (live_of_isFastValid hvalid) a lkeys⟩
      · exact ⟨_, hrun, ⟨h.burned, h.served⟩⟩
    | false =>
      rcases issue_regular hsound ha kind with ⟨t', hrun, hpost, hfree⟩
      refine ⟨_, hrun, h.pushed hpost fun hnil => ?_⟩
      rcases hpostable rfl with hnone | hwire | hroom
      · rw [ha] at hnone
        cases hnone
      · exact Or.inl hwire
      · exact Or.inr (hfree hnil hroom)

theorem Flowing.step (h : t.Flowing) (hsound : t.Sound) {past : List Op} {op : Op}
    (hop : Allowed past t op) (hstep : t.step op = .ok t') : t'.Flowing := by
  have hissue : ∀ (kind : OpKind) (a : OpArgs) (fast : Bool), (fast = false → a.ibRegElem = none ∨
      t.OnWire kind ∨ ∃ q ∈ t.opQps a.config, t.load kind q < t.opMaxMsgs a.config) →
      (t.issue kind a fast).map Prod.snd = .ok t' → t'.Flowing := by
    intro kind a fast hpostable hrun
    rcases h.issue hsound hpostable with ⟨r, hr, hflow⟩
    rw [hr] at hrun
    cases hrun
    exact hflow
  cases op with
  | iput a fast =>
    refine hissue .put a fast (fun hfast => ?_) hstep
    subst hfast
    exact hop.2
  | iget a fast =>
    refine hissue .get { a with notify := false } fast (fun hfast => ?_) hstep
    subst hfast
    exact hop.2
  | notify req =>
    cases hstep
    have hsame := sameData_notify t req
    refine ⟨fun k => (h.burned k).of_ops (by rw [hsame.ops]), fun k hne => ?_⟩
    rw [hsame.ops] at hne
    rw [OnWire, hsame.wire]
    exact h.served k hne
  | dataCqe qpIdx =>
    rcases find_of_wellFormed hop.1 with ⟨p, hp, rfl⟩
    rcases dataCqe_spec hsound hp with ⟨t₁, t₂, u, hrun, htaking, hburn, hburned, hqueue, hpost⟩
    have heq : u = t' := by
      rw [CtranIbVirtualConn.step, hrun] at hstep
      exact Except.ok.inj hstep
    subst heq
    have hcons := ((hsound.change (htaking.change hp)).changes (changes_of_burnings hburn)).toConsistent
    exact h.dataCqe hp htaking hburn hburned hcons hqueue hpost
  | notifyCqe =>
    rcases notifyCqe_spec hsound hop.1 with ⟨n, ns, hout, hrun⟩
    have heq : t.noticed n ns = t' := by
      rw [CtranIbVirtualConn.step, hrun] at hstep
      exact Except.ok.inj hstep
    subst heq
    have hsame := sameData_noticed t n ns
    refine ⟨fun k => (h.burned k).of_ops (by rw [hsame.ops]), fun k hne => ?_⟩
    rw [hsame.ops] at hne
    rw [OnWire, hsame.wire]
    exact h.served k hne

/-- Nothing is queued and every request is complete, each once. -/
structure Drained (t : CtranIbVirtualConn) : Prop where
  ops : ∀ kind, t.ops kind = {}
  pendingNotifies : t.pendingNotifies_ = []
  requests : t.completed.Perm t.requests

theorem Flowing.drained (h : t.Flowing) (hsafe : t.Safe) (hbalanced : t.Balanced)
    (hwire : t.wire = []) (hnotify : t.notifyWire = []) : t.Drained := by
  have hops : ∀ kind, t.ops kind = {} := by
    intro kind
    have hpend : (t.ops kind).pending = [] := by
      by_contra hne
      rcases h.served kind hne with ⟨p, hp, _⟩
      rw [hwire] at hp
      cases hp
    have hfast : (t.ops kind).fast = [] := by
      have hids := hsafe.sound.fasts kind
      rwa [hwire, List.filter_nil, List.map_nil, List.map_eq_nil_iff] at hids
    have hout : (t.ops kind).outstanding = [] := by
      cases hcons : (t.ops kind).outstanding with
      | nil => rfl
      | cons op rest =>
        have hpos := h.burned kind hfast op (by simp [hcons])
        have hcount := hsafe.sound.counted kind op (by simp [live, hcons])
        rw [inFlight, hwire, List.countP_nil] at hcount
        omega
    cases hq : t.ops kind
    simp_all
  have hout : t.outstandingNotifies_ = [] := by
    have hnotices := hsafe.sound.notices
    rwa [hnotify, eq_comm, List.map_eq_nil_iff] at hnotices
  have hpend : t.pendingNotifies_ = [] := by
    by_contra hne
    have hfull := hsafe.throttled.full hne
    rw [hout] at hfull
    cases hfull
  refine ⟨hops, hpend, ?_⟩
  have hheld : t.held = 0 := by
    have hnone : ∀ kind, t.opReqs kind = 0 := by
      intro kind
      rw [opReqs, live, hops]
      rfl
    rw [held, hnone, hnone, heldNotices, hout, hpend]
    rfl
  rw [Balanced, hheld, add_zero, Multiset.coe_eq_coe] at hbalanced
  exact hbalanced

theorem drained_of_postable (cfg : VcConfig) (ops : List Op)
    (hadm : Admissible step Allowed [] { cfg := cfg } ops) :
    ∃ t, run step { cfg := cfg } ops = .ok t ∧
      t.completed.Subperm t.requests ∧
      (t.wire = [] → t.notifyWire = [] → t.Drained) := by
  have hrun := run_invariant (fun _ t => t.Safe ∧ t.Balanced ∧ t.Flowing) (fun past t op hinv hop => by
    rcases hinv with ⟨hsafe, hbalanced, hflow⟩
    rcases step_spec hsafe.sound hop.1 with ⟨t', hstep, hchanges⟩
    have hboth : t'.Safe ∧ t'.Balanced := by
      clear hstep
      induction hchanges with
      | refl => exact ⟨hsafe, hbalanced⟩
      | tail _ hlast ih => exact ⟨ih.1.changes (.single hlast), ih.2.change ih.1.known hlast⟩
    exact ⟨t', hstep, hboth.1, hboth.2, hflow.step hsafe.sound hop hstep⟩) ops
    ⟨safe_init cfg, balanced_init cfg, flowing_init cfg⟩ hadm
  rcases hrun with ⟨t, ht, hsafe, hbalanced, hflow⟩
  refine ⟨t, ht, ?_, hflow.drained hsafe hbalanced⟩
  rw [← Multiset.coe_le, ← hbalanced]
  exact Multiset.le_add_right ..

instance (t : CtranIbVirtualConn) (op : Op) : Decidable (t.Postable op) :=
  match op with
  | .iput a false => inferInstanceAs (Decidable (a.ibRegElem = none ∨
      (∃ p ∈ t.wire, p.kind = .put) ∨ ∃ q ∈ t.opQps a.config, t.load .put q < t.opMaxMsgs a.config))
  | .iget a false => inferInstanceAs (Decidable (a.ibRegElem = none ∨
      (∃ p ∈ t.wire, p.kind = .get) ∨ ∃ q ∈ t.opQps a.config, t.load .get q < t.opMaxMsgs a.config))
  | .iput _ true | .iget _ true | .notify _ | .dataCqe _ | .notifyCqe => isTrue trivial

instance (past : List Op) (t : CtranIbVirtualConn) (op : Op) : Decidable (Allowed past t op) :=
  inferInstanceAs (Decidable (_ ∧ _))

/-- One message at a time on one QP. -/
def oneMsg : CtranIbConfig := ⟨1, 1, 0, .dqplb, Nat.one_pos, Nat.one_pos⟩

/-- A put and a get on different QPs, and a get that waits for the one before it. -/
theorem drained_of_postable_twoQps :
    ∃ t, run step { cfg := twoQps }
        [.iput ⟨0, 0, 16, some [1], [2], true, none, some 1⟩ false,
          .iget ⟨0, 0, 16, some [1], [2], false, none, some 2⟩ false,
          .iget ⟨0, 0, 16, some [1], [2], false, some oneMsg, some 3⟩ false, .dataCqe 1, .dataCqe 0,
          .notifyCqe, .dataCqe 1] = .ok t ∧
      t.completed.Subperm t.requests ∧ (t.wire = [] → t.notifyWire = [] → t.Drained) :=
  drained_of_postable twoQps _ (by decide)

/-- The get finds its QP full of the put, and the completion of the put does not post it. -/
def stranded : List Op :=
  [.iput ⟨0, 0, 16, some [1], [2], false, some oneMsg, some 1⟩ false,
    .iget ⟨0, 0, 16, some [1], [2], false, some oneMsg, some 2⟩ false, .dataCqe 0]

theorem not_drained_of_wellFormed :
    ¬ ∀ (cfg : VcConfig) (ops : List Op), Admissible step WellFormed [] { cfg := cfg } ops →
      ∃ t, run step { cfg := cfg } ops = .ok t ∧ (t.wire = [] → t.notifyWire = [] → t.Drained) := by
  intro h
  rcases h twoQps stranded (by decide) with ⟨t, hrun, hdrained⟩
  have hstate : (run step { cfg := twoQps } stranded).toOption.map
      (fun t => (t.wire, t.notifyWire, (t.ops .get).pending.length)) = some ([], [], 1) := by decide
  simp only [hrun, Except.toOption, Option.map_some, Option.some.injEq, Prod.mk.injEq] at hstate
  have hops := (hdrained hstate.1 hstate.2.1).ops .get
  rw [hops] at hstate
  cases hstate.2.2

end CtranIbVirtualConn
end TorchComms.CtranIb
