import TorchComms.CtranIb.PutBatch

/-! # How full a data QP gets

The tests for room on QP 0 count the fast operations of their own kind only, and those of the fast
path not even the regular ones. Where they leave room for what they do not count, no data QP holds
more work requests than its limit: a completion posts what takes the place of the completed one.
-/
namespace TorchComms.CtranIb

def OpKind.other : OpKind → OpKind
  | .put => .get
  | .get => .put

namespace CtranIbVirtualConn

open Foundation

variable {t t' u : CtranIbVirtualConn} {kind : OpKind} {c : VcConfig} {s i : ℕ}

/-- The work requests of a data QP that were posted and have not completed. -/
def onWire (t : CtranIbVirtualConn) (q : ℕ) : ℕ := t.wire.countP (·.qpIdx = q)

/-- The work requests that the queues hold for a data QP. -/
def occupied (t : CtranIbVirtualConn) (q : ℕ) : ℕ :=
  (t.pendingWqeQs_ q).length +
    if q = 0 then (t.ops .put).fast.length + (t.ops .get).fast.length else 0

inductive BatchOp where
  | one (op : Op)
  | iputBatch (msgs : List OpArgs)
deriving DecidableEq, Repr

def batchStep (t : CtranIbVirtualConn) : BatchOp → Except VcFault CtranIbVirtualConn
  | .one op => t.step op
  | .iputBatch msgs => (t.iputBatch msgs).map Prod.snd

/-- The limit of an operation leaves room for the fast operations of the other kind. -/
def LeavesRoom (t : CtranIbVirtualConn) (kind : OpKind) (config : Option CtranIbConfig) : Prop :=
  t.opMaxMsgs config + (t.ops kind.other).fast.length ≤ t.cfg.maxQpMsgs_

/-- That of a regular operation, and of all that are still pending. -/
def RegularFits (t : CtranIbVirtualConn) (kind : OpKind)
    (configs : List (Option CtranIbConfig)) : Prop :=
  (∀ op ∈ (t.ops kind).pending, t.LeavesRoom kind op.config) ∧
    ∀ config ∈ configs, t.LeavesRoom kind config

/-- A registered fast operation that passes its test finds room among all that is on QP 0. -/
def FastFits (t : CtranIbVirtualConn) (kind : OpKind) (a : OpArgs) : Prop :=
  a.ibRegElem.isSome → t.isFastValid kind a.config a.len 1 → t.occupied 0 + 1 ≤ t.cfg.maxQpMsgs_

def IssueFits (t : CtranIbVirtualConn) (kind : OpKind) (a : OpArgs) (fast : Bool) : Prop :=
  if fast then t.FastFits kind a else t.RegularFits kind [a.config]

def WithinBudget (_ : List BatchOp) (t : CtranIbVirtualConn) : BatchOp → Prop
  | .one (.iput a fast) => t.IssueFits .put a fast
  | .one (.iget a fast) => t.IssueFits .get a fast
  | .iputBatch msgs =>
    if t.sendChained msgs then t.occupied 0 + (registered msgs).length ≤ t.cfg.maxQpMsgs_
    else t.RegularFits .put (msgs.map (·.config))
  | .one (.notify _) | .one (.dataCqe _) | .one .notifyCqe => True

instance (kind : OpKind) (configs : List (Option CtranIbConfig)) :
    Decidable (t.RegularFits kind configs) :=
  inferInstanceAs (Decidable ((∀ op ∈ (t.ops kind).pending,
      t.opMaxMsgs op.config + (t.ops kind.other).fast.length ≤ t.cfg.maxQpMsgs_) ∧
    ∀ config ∈ configs,
      t.opMaxMsgs config + (t.ops kind.other).fast.length ≤ t.cfg.maxQpMsgs_))

instance (kind : OpKind) (a : OpArgs) (fast : Bool) : Decidable (t.IssueFits kind a fast) :=
  inferInstanceAs (Decidable (if fast then
    (a.ibRegElem.isSome → t.isFastValid kind a.config a.len 1 →
      t.occupied 0 + 1 ≤ t.cfg.maxQpMsgs_) else t.RegularFits kind [a.config]))

instance (past : List BatchOp) (t : CtranIbVirtualConn) (op : BatchOp) :
    Decidable (WithinBudget past t op) :=
  match op with
  | .one (.iput a fast) => inferInstanceAs (Decidable (t.IssueFits .put a fast))
  | .one (.iget a fast) => inferInstanceAs (Decidable (t.IssueFits .get a fast))
  | .iputBatch msgs => inferInstanceAs (Decidable (if t.sendChained msgs then
      t.occupied 0 + (registered msgs).length ≤ t.cfg.maxQpMsgs_
      else t.RegularFits .put (msgs.map (·.config))))
  | .one (.notify _) | .one (.dataCqe _) | .one .notifyCqe => isTrue trivial

/-! ### The counts -/

/-- What is on the wire is in the queues, which stay within the limit. -/
structure InBudget (c : VcConfig) (t : CtranIbVirtualConn) : Prop where
  cfg : t.cfg = c
  tracked : ∀ q, t.onWire q ≤ t.occupied q
  bounded : ∀ q, t.occupied q ≤ c.maxQpMsgs_

theorem inBudget_init (cfg : VcConfig) : InBudget cfg { cfg := cfg } where
  cfg := rfl
  tracked _ := Nat.zero_le _
  bounded q := by
    have hzero : occupied { cfg := cfg } q = 0 := by
      rw [occupied]
      split <;> rfl
    rw [hzero]
    exact Nat.zero_le _

theorem occupied_eq (t : CtranIbVirtualConn) (kind : OpKind) (q : ℕ) :
    t.occupied q = t.load kind q + if q = 0 then (t.ops kind.other).fast.length else 0 := by
  rw [occupied, load]
  cases kind with
  | put =>
    simp only [OpKind.other]
    split <;> omega
  | get =>
    simp only [OpKind.other]
    split <;> omega

/-- `d` work requests more on the QP `i`. -/
structure Gains (i d : ℕ) (t t' : CtranIbVirtualConn) : Prop where
  cfg : t'.cfg = t.cfg
  onWire : ∀ q, t'.onWire q = t.onWire q + if q = i then d else 0
  occupied : ∀ q, t'.occupied q = t.occupied q + if q = i then d else 0
  fast : ∀ k, (t'.ops k).fast = (t.ops k).fast

variable {a : OpArgs} {d : ℕ}

theorem InBudget.gains (h : InBudget c t) (hgains : Gains i d t t')
    (hroom : t.occupied i + d ≤ c.maxQpMsgs_) : InBudget c t' where
  cfg := hgains.cfg.trans h.cfg
  tracked q := by
    rw [hgains.onWire, hgains.occupied]
    exact Nat.add_le_add_right (h.tracked q) _
  bounded q := by
    rw [hgains.occupied]
    split
    · rename_i hq
      rwa [hq]
    · exact h.bounded q

theorem onWire_append (p : Posted) (h : t'.wire = t.wire ++ [p]) (q : ℕ) :
    t'.onWire q = t.onWire q + if q = p.qpIdx then 1 else 0 := by
  rw [onWire, h, List.countP_append, onWire, List.countP_singleton]
  congr 1
  by_cases hq : q = p.qpIdx
  · simp [hq]
  · simp [hq, Ne.symm hq]

theorem occupied_of_fast (hfast : ∀ k, (t'.ops k).fast = (t.ops k).fast)
    (hqueue : t'.pendingWqeQs_ =
      Function.update t.pendingWqeQs_ i (t'.pendingWqeQs_ i))
    (hlen : (t'.pendingWqeQs_ i).length = (t.pendingWqeQs_ i).length + d) (q : ℕ) :
    t'.occupied q = t.occupied q + if q = i then d else 0 := by
  have hqlen : (t'.pendingWqeQs_ q).length =
      (t.pendingWqeQs_ q).length + if q = i then d else 0 := by
    by_cases hq : q = i
    · rw [if_pos hq, hq, hlen]
    · rw [if_neg hq, hqueue, Function.update_of_ne hq, Nat.add_zero]
  rw [occupied, occupied, hfast, hfast, hqlen]
  omega

/-! ### Posting -/

theorem gains_postWqe (t : CtranIbVirtualConn) (kind : OpKind) (i : ℕ) (op : OpInfo)
    (rest : List OpInfo) : Gains i 1 t (t.postWqe kind i op rest) := by
  have hfast : ∀ k, ((t.postWqe kind i op rest).ops k).fast = (t.ops k).fast := by
    intro k
    by_cases hk : k = kind
    · subst hk
      rw [postWqe_ops_self, OpQueues.fast_advance]
    · rw [postWqe_ops_of_ne hk]
  refine ⟨rfl, fun q => ?_, occupied_of_fast hfast ?_ ?_, hfast⟩
  · exact onWire_append (t.newWqe kind i op) rfl q
  · change Function.update _ i _ = Function.update _ i (Function.update _ i _ i)
    rw [Function.update_self]
  · change (Function.update t.pendingWqeQs_ i _ i).length = _
    rw [Function.update_self, List.length_append, List.length_singleton]

theorem gains_queueOnQp (hok : t.queueOnQp kind i = .ok t') : ∃ d ≤ 1, Gains i d t t' := by
  unfold queueOnQp at hok
  split at hok
  · cases hok
    exact ⟨0, Nat.zero_le 1, rfl, fun q => by simp, fun q => by simp, fun k => rfl⟩
  · split at hok
    · cases hok
    · cases hok
      exact ⟨1, Nat.le_refl 1, gains_postWqe ..⟩

theorem pending_queueOnQp (hok : t.queueOnQp kind i = .ok t') :
    ∀ op' ∈ (t'.ops kind).pending, ∃ op ∈ (t.ops kind).pending, op'.config = op.config := by
  unfold queueOnQp at hok
  cases hp : (t.ops kind).pending with
  | nil =>
    simp only [hp] at hok
    cases hok
    rw [hp]
    exact fun op' hop' => ⟨op', hop', rfl⟩
  | cons op rest =>
    simp only [hp] at hok
    split at hok
    · cases hok
    · cases hok
      intro op' hop'
      rw [postWqe_ops_self, OpQueues.advance] at hop'
      split at hop'
      · exact ⟨op', List.mem_cons_of_mem _ hop', rfl⟩
      · rcases List.mem_cons.mp hop' with rfl | hop'
        · exact ⟨op, List.mem_cons_self .., rfl⟩
        · exact ⟨op', List.mem_cons_of_mem _ hop', rfl⟩

/-- `LeavesRoom` with `s` fast operations of the other kind. -/
def Leaves (c : VcConfig) (s : ℕ) (config : Option CtranIbConfig) : Prop :=
  min (c.getOpMaxQpMsgs config) c.maxQpMsgs_ + s ≤ c.maxQpMsgs_

/-- While operations of one kind are posted, `s` fast ones of the other kind are there. -/
structure Guarded (c : VcConfig) (kind : OpKind) (s : ℕ) (t : CtranIbVirtualConn) : Prop
    extends InBudget c t where
  others : (t.ops kind.other).fast.length = s
  leaves : ∀ op ∈ (t.ops kind).pending, Leaves c s op.config

theorem Guarded.turn (h : Guarded c kind s t) (j : ℕ) :
    Guarded c kind s { t with qpIdxRR_ := j } where
  __ := h

theorem Guarded.queueOnQp (h : Guarded c kind s t) (hroom : t.occupied i + 1 ≤ c.maxQpMsgs_)
    (hok : t.queueOnQp kind i = .ok t') : Guarded c kind s t' := by
  rcases gains_queueOnQp hok with ⟨d, hd, hgains⟩
  refine ⟨h.toInBudget.gains hgains (by omega), ?_, fun op' hop' => ?_⟩
  · rw [hgains.fast]
    exact h.others
  · rcases pending_queueOnQp hok op' hop' with ⟨op, hop, hconfig⟩
    rw [hconfig]
    exact h.leaves op hop

theorem Guarded.room (h : Guarded c kind s t) {maxmsgs : ℕ} (hmax : maxmsgs + s ≤ c.maxQpMsgs_)
    (hload : t.load kind i < maxmsgs) : t.occupied i + 1 ≤ c.maxQpMsgs_ := by
  have hothers := h.others
  rw [occupied_eq t kind]
  split <;> omega

variable {qps maxmsgs : ℕ}

theorem Guarded.postOnNext (h : Guarded c kind s t) {sent sent' : Bool}
    (hmax : maxmsgs + s ≤ c.maxQpMsgs_)
    (hok : t.postOnNext kind qps maxmsgs sent = .ok (sent', t')) : Guarded c kind s t' := by
  unfold CtranIbVirtualConn.postOnNext at hok
  split at hok
  · rename_i hload
    cases hq : t.queueOnQp kind t.qpIdxRR_ with
    | error e =>
      rw [hq] at hok
      cases hok
    | ok v =>
      rw [hq] at hok
      cases hok
      exact (h.queueOnQp (h.room hmax hload) hq).turn _
  · cases hok
    exact h.turn _

theorem Guarded.postOnQps (hmax : maxmsgs + s ≤ c.maxQpMsgs_) : ∀ (n : ℕ)
    {sent sent' : Bool} {t t' : CtranIbVirtualConn}, Guarded c kind s t →
    CtranIbVirtualConn.postOnQps kind qps maxmsgs n sent t = .ok (sent', t') → Guarded c kind s t'
  | 0, sent, sent', t, t', h, hok => by
    cases hok
    exact h
  | n + 1, sent, sent', t, t', h, hok => by
    cases hnext : t.postOnNext kind qps maxmsgs sent with
    | error e => simp only [CtranIbVirtualConn.postOnQps, hnext, reduceCtorEq] at hok
    | ok r =>
      rcases r with ⟨sent₁, t₁⟩
      have h₁ := h.postOnNext hmax hnext
      simp only [CtranIbVirtualConn.postOnQps, hnext] at hok
      split at hok
      · cases hok
        exact h₁
      · exact Guarded.postOnQps hmax n h₁ hok

theorem Guarded.postRound (h : Guarded c kind s t) {sent : Bool}
    (hok : t.postRound kind = .ok (sent, t')) : Guarded c kind s t' := by
  unfold CtranIbVirtualConn.postRound at hok
  cases hp : (t.ops kind).pending with
  | nil =>
    rw [hp] at hok
    cases hok
    exact h
  | cons op rest =>
    simp only [hp] at hok
    have hleaves := h.leaves op (by simp [hp])
    rw [Leaves, ← h.cfg] at hleaves
    exact Guarded.postOnQps (by rwa [← h.cfg]) _ h hok

theorem Guarded.tryToPostOp (h : Guarded c kind s t) (hok : t.tryToPostOp kind = .ok t') :
    Guarded c kind s t' :=
  loop_of_ok (Guarded c kind s) (fun _ _ _ hu hv => hv.postRound hu) h hok

/-! ### Issuing -/

theorem gains_zero (hcfg : t'.cfg = t.cfg) (hwire : t'.wire = t.wire)
    (hqueues : t'.pendingWqeQs_ = t.pendingWqeQs_)
    (hfast : ∀ k, (t'.ops k).fast = (t.ops k).fast) : Gains 0 0 t t' where
  cfg := hcfg
  onWire q := by
    rw [onWire, hwire, ite_self]
    rfl
  occupied q := by
    rw [CtranIbVirtualConn.occupied, hqueues, hfast, hfast, ite_self]
    rfl
  fast := hfast

theorem InBudget.of_zero (h : InBudget c t) (hgains : Gains 0 0 t t') : InBudget c t' :=
  h.gains hgains (h.bounded 0)

theorem gains_sameData (h : SameData t t') : Gains 0 0 t t' :=
  gains_zero h.cfg h.wire h.queues fun k => by rw [h.ops]

theorem fast_pushed (t : CtranIbVirtualConn) (kind : OpKind) (a : OpArgs) (lkeys : List ℕ)
    (k : OpKind) : ((t.pushed kind a lkeys).ops k).fast = (t.ops k).fast := by
  by_cases hk : k = kind
  · subst hk
    rw [pushed_ops_self]
  · rw [pushed_ops_of_ne t a lkeys hk]

theorem Guarded.pushed (h : Guarded c kind s t) (ha : Leaves c s a.config)
    (lkeys : List ℕ) : Guarded c kind s (t.pushed kind a lkeys) where
  toInBudget := h.of_zero (gains_zero rfl rfl rfl (fast_pushed t kind a lkeys))
  others := by
    rw [fast_pushed]
    exact h.others
  leaves op hop := by
    rw [pushed_ops_self, List.mem_append, List.mem_singleton] at hop
    rcases hop with hop | rfl
    · exact h.leaves op hop
    · exact ha

variable {r : CommResult}

theorem Guarded.issue (h : Guarded c kind s t) (ha : Leaves c s a.config)
    (hok : t.issue kind a false = .ok (r, t')) : Guarded c kind s t' := by
  unfold CtranIbVirtualConn.issue at hok
  cases hreg : a.ibRegElem with
  | none =>
    rw [hreg] at hok
    cases hok
    exact h
  | some lkeys =>
    simp only [hreg] at hok
    change Except.map _ ((t.pushed kind a lkeys).tryToPostOp kind) = _ at hok
    cases hpost : (t.pushed kind a lkeys).tryToPostOp kind with
    | error e =>
      rw [hpost] at hok
      cases hok
    | ok v =>
      rw [hpost] at hok
      cases hok
      exact (h.pushed ha lkeys).tryToPostOp hpost

theorem Guarded.iputs : ∀ {puts : List OpArgs} {t t' : CtranIbVirtualConn},
    Guarded c .put s t → (∀ a ∈ puts, Leaves c s a.config) →
    CtranIbVirtualConn.iputs puts t = .ok (r, t') → Guarded c .put s t'
  | [], t, t', h, _, hok => by
    cases hok
    exact h
  | a :: puts, t, t', h, hall, hok => by
    cases hput : t.iput a false with
    | error e => simp only [CtranIbVirtualConn.iputs, hput, reduceCtorEq] at hok
    | ok v =>
      rcases v with ⟨r', v⟩
      have hnext := h.issue (hall a (List.mem_cons_self ..)) hput
      simp only [CtranIbVirtualConn.iputs, hput] at hok
      split at hok
      · exact Guarded.iputs hnext (fun b hb => hall b (List.mem_cons_of_mem _ hb)) hok
      · cases hok
        exact hnext

section

variable (h : InBudget c t)
include h

theorem InBudget.guarded {configs : List (Option CtranIbConfig)}
    (hfits : t.RegularFits kind configs) :
    Guarded c kind (t.ops kind.other).fast.length t ∧
      ∀ config ∈ configs, Leaves c (t.ops kind.other).fast.length config := by
  have hcfg := h.cfg
  subst hcfg
  exact ⟨⟨h, rfl, hfits.1⟩, hfits.2⟩

theorem InBudget.fasts (kind : OpKind) (ps : List Posted)
    (hcfg : t'.cfg = t.cfg) (hwire : t'.wire = t.wire ++ ps) (hps : ps.length ≤ d) (hqp : ∀ p ∈ ps, p.qpIdx = 0)
    (hqueues : t'.pendingWqeQs_ = t.pendingWqeQs_)
    (hfast : (t'.ops kind).fast.length = (t.ops kind).fast.length + d)
    (hother : (t'.ops kind.other).fast = (t.ops kind.other).fast)
    (hroom : t.occupied 0 + d ≤ c.maxQpMsgs_) : InBudget c t' := by
  have hocc : ∀ q, t'.occupied q = t.occupied q + if q = 0 then d else 0 := by
    intro q
    rw [occupied_eq t' kind, occupied_eq t kind, load, load, hqueues, hfast, hother]
    split <;> omega
  have hgain : ps.countP (·.qpIdx = 0) = ps.length :=
    List.countP_eq_length.mpr fun p hp => decide_eq_true (hqp p hp)
  refine ⟨hcfg.trans h.cfg, fun q => ?_, fun q => ?_⟩
  · have htracked := h.tracked q
    rw [hocc, onWire, hwire, List.countP_append]
    by_cases hq : q = 0
    · subst hq
      rw [hgain, if_pos rfl]
      exact Nat.add_le_add htracked hps
    · have hnone : ps.countP (·.qpIdx = q) = 0 := by
        rw [List.countP_eq_zero]
        intro p hp hcontra
        exact hq ((of_decide_eq_true hcontra).symm.trans (hqp p hp))
      rw [hnone, if_neg hq]
      exact htracked
  · have hbounded := h.bounded q
    rw [hocc]
    split
    · rename_i hq
      rwa [hq]
    · exact hbounded

theorem InBudget.issue {fast : Bool} (hfits : t.IssueFits kind a fast)
    (hok : t.issue kind a fast = .ok (r, t')) : InBudget c t' := by
  cases fast with
  | false =>
    rcases h.guarded hfits with ⟨hguarded, hall⟩
    exact (hguarded.issue (hall a.config (List.mem_singleton_self _)) hok).toInBudget
  | true =>
    cases hreg : a.ibRegElem with
    | none =>
      simp only [CtranIbVirtualConn.issue, hreg] at hok
      cases hok
      exact h
    | some lkeys =>
      rcases issue_fast (t := t) hreg kind with ⟨hvalid, hrun⟩ | ⟨_, hrun⟩
      · rw [hrun] at hok
        cases hok
        have hroom := hfits (by simp [hreg]) hvalid
        rw [h.cfg] at hroom
        have hne : kind.other ≠ kind := by cases kind <;> decide
        refine h.fasts kind [t.newFast kind a lkeys] rfl rfl (Nat.le_refl 1)
          (fun p hp => ?_) rfl ?_ ?_ hroom
        · rw [List.mem_singleton.mp hp]
          rfl
        · rw [fastPosted_ops_self]
          exact List.length_append
        · rw [fastPosted_ops_of_ne t a lkeys hne]
      · rw [hrun] at hok
        cases hok
        exact h.of_zero (gains_zero rfl rfl rfl fun _ => rfl)

theorem InBudget.iputBatch {msgs : List OpArgs} (hfits : WithinBudget [] t (.iputBatch msgs))
    (hok : t.iputBatch msgs = .ok (r, t')) : InBudget c t' := by
  by_cases hne : msgs = []
  · subst hne
    cases hok
    exact h
  simp only [WithinBudget] at hfits
  by_cases hchained : t.sendChained msgs
  · rw [if_pos hchained, h.cfg] at hfits
    rcases iputBatch_chained hne hchained with ⟨chain, v, hlinked, hrun⟩
    have hlen : chain.length = (registered msgs).length := by
      rw [← hlinked.puts, List.length_map]
    have hfast : (v.ops .put).fast.length = (t.ops .put).fast.length + (registered msgs).length := by
      rw [hlinked.tracked, List.length_append, List.length_map, hlen]
    have hgets : (v.ops .get).fast = (t.ops .get).fast := by rw [hlinked.gets]
    rw [hrun] at hok
    by_cases hall : (registered msgs).length = msgs.length
    · rw [if_pos hall] at hok
      cases hok
      refine h.fasts .put (chain.map Prod.fst) hlinked.cfg ?_ ?_ ?_ hlinked.queues
        hfast hgets hfits
      · rw [← hlinked.wire]
        rfl
      · rw [List.length_map, hlen]
      · intro p hp
        rcases List.mem_map.mp hp with ⟨x, hx, rfl⟩
        exact (hlinked.carries x hx).onFastQp
    · rw [if_neg hall] at hok
      cases hok
      refine h.fasts .put [] hlinked.cfg ?_ (Nat.zero_le _)
        (fun p hp => nomatch hp) hlinked.queues hfast hgets hfits
      rw [List.append_nil]
      exact hlinked.wire
  · rw [if_neg hchained] at hfits
    rcases h.guarded hfits with ⟨hguarded, hall⟩
    rw [iputBatch_fallback hchained] at hok
    exact (hguarded.iputs (fun a ha => hall a.config (List.mem_map_of_mem ha)) hok).toInBudget

end

/-! ### Completing -/

/-- A QP has got rid of one work request. -/
structure Freed (i : ℕ) (t u : CtranIbVirtualConn) : Prop where
  cfg : u.cfg = t.cfg
  onWire : ∀ q, t.onWire q = u.onWire q + if q = i then 1 else 0
  occupied : ∀ q, t.occupied q = u.occupied q + if q = i then 1 else 0

theorem InBudget.refill (h : InBudget c t) (hfreed : Freed i t u)
    (hok : u.queueOnQp kind i = .ok t') : InBudget c t' := by
  rcases gains_queueOnQp hok with ⟨d, hd, hgains⟩
  have hu : InBudget c u := by
    refine ⟨hfreed.cfg.trans h.cfg, fun q => ?_, fun q => ?_⟩
    · have htracked := h.tracked q
      rw [hfreed.onWire, hfreed.occupied] at htracked
      exact Nat.le_of_add_le_add_right htracked
    · have hbounded := h.bounded q
      rw [hfreed.occupied] at hbounded
      exact Nat.le_of_add_right_le hbounded
  refine hu.gains hgains ?_
  have hbounded := h.bounded i
  rw [hfreed.occupied, if_pos rfl] at hbounded
  omega

theorem Gains.trans_zero (h : Gains 0 0 t u) (h' : Gains 0 0 u t') : Gains 0 0 t t' where
  cfg := h'.cfg.trans h.cfg
  onWire q := by rw [h'.onWire, h.onWire, Nat.add_assoc, ite_self]
  occupied q := by rw [h'.occupied, h.occupied, Nat.add_assoc, ite_self]
  fast k := (h'.fast k).trans (h.fast k)

theorem gains_setOps (t : CtranIbVirtualConn) (kind : OpKind) {f : OpQueues → OpQueues}
    (hf : (f (t.ops kind)).fast = (t.ops kind).fast) : Gains 0 0 t (t.setOps kind f) := by
  refine gains_zero rfl rfl rfl fun k => ?_
  by_cases hk : k = kind
  · subst hk
    rw [ops_setOps_self]
    exact hf
  · rw [ops_setOps_of_ne t f hk]

theorem gains_burnDownFrom (kind : OpKind) : ∀ (l : List OpInfo) (t : CtranIbVirtualConn),
    Gains 0 0 t (burnDownFrom kind l t)
  | [], t => gains_zero rfl rfl rfl fun _ => rfl
  | op :: rest, t => by
    rw [burnDownFrom]
    split
    · exact gains_zero rfl rfl rfl fun _ => rfl
    · exact ((gains_sameData (sameData_finishOp t kind op)).trans_zero
        (gains_setOps _ kind rfl)).trans_zero (gains_burnDownFrom kind rest _)

theorem gains_burnDown (t : CtranIbVirtualConn) (kind : OpKind) : Gains 0 0 t (t.burnDown kind) := by
  rw [burnDown]
  split
  · exact gains_burnDownFrom kind _ t
  · exact gains_zero rfl rfl rfl fun _ => rfl

theorem Freed.of_zero (h : Freed i t u) (hgains : Gains 0 0 u t') : Freed i t t' where
  cfg := hgains.cfg.trans h.cfg
  onWire q := by rw [h.onWire, hgains.onWire, ite_self, Nat.add_zero]
  occupied q := by rw [h.occupied, hgains.occupied, ite_self, Nat.add_zero]

theorem onWire_eraseP (t : CtranIbVirtualConn) (h : ∃ p ∈ t.wire, p.qpIdx = i) (q : ℕ) :
    t.onWire q = (t.wire.eraseP (·.qpIdx = i)).countP (·.qpIdx = q) + if q = i then 1 else 0 := by
  rcases h with ⟨p, hp, hpi⟩
  rcases List.exists_of_eraseP (p := fun p : Posted => decide (p.qpIdx = i)) hp
    (decide_eq_true hpi) with ⟨p', before, after, -, hp', hwire, herase⟩
  have hpi' : p'.qpIdx = i := of_decide_eq_true hp'
  rw [herase, onWire, hwire, List.countP_append, List.countP_append, List.countP_cons, hpi']
  by_cases hq : q = i
  · simp [hq, Nat.add_assoc]
  · simp [hq, Ne.symm hq]

theorem freed_of_wire (h : ∃ p ∈ t.wire, p.qpIdx = i) (hcfg : u.cfg = t.cfg)
    (hwire : u.wire = t.wire.eraseP (·.qpIdx = i))
    (hocc : ∀ q, t.occupied q = u.occupied q + if q = i then 1 else 0) : Freed i t u where
  cfg := hcfg
  onWire q := by
    rw [onWire_eraseP t h q, ← hwire]
    rfl
  occupied := hocc

section

variable (h : InBudget c t)
include h

theorem InBudget.completeFast (hwire : ∃ p ∈ t.wire, p.qpIdx = 0) {f : FastOpInfo}
    {fs : List FastOpInfo} (hf : (t.ops kind).fast = f :: fs)
    (hok : CtranIbVirtualConn.completeFast { t with wire := t.wire.eraseP (·.qpIdx = 0) } kind 0 f fs =
      .ok t') : InBudget c t' := by
  have hne : kind.other ≠ kind := by cases kind <;> decide
  have hfreed : Freed 0 t ((completeReq { t with wire := t.wire.eraseP (·.qpIdx = 0) }
      (.op kind f.id) f.req).setOps kind fun q => { q with fast := fs }) := by
    refine freed_of_wire hwire rfl rfl fun q => ?_
    rw [occupied_eq _ kind, occupied_eq _ kind, load, load, ops_setOps_self,
      ops_setOps_of_ne _ _ hne, hf, List.length_cons]
    change _ = (t.pendingWqeQs_ q).length + (if q = 0 then fs.length else 0) +
      (if q = 0 then (t.ops kind.other).fast.length else 0) + _
    split <;> omega
  unfold CtranIbVirtualConn.completeFast at hok
  simp only at hok
  split at hok
  · exact h.refill (hfreed.of_zero (gains_burnDown _ kind)) hok
  · exact h.refill hfreed hok

theorem InBudget.completeWqe (hwire : ∃ p ∈ t.wire, p.qpIdx = i) {wrId : ℕ}
    (hok : CtranIbVirtualConn.completeWqe { t with wire := t.wire.eraseP (·.qpIdx = i) } kind i wrId =
      .ok t') : InBudget c t' := by
  unfold CtranIbVirtualConn.completeWqe at hok
  cases hqueue : t.pendingWqeQs_ i with
  | nil =>
    simp only [hqueue] at hok
    cases hok
  | cons w ws =>
    simp only [hqueue] at hok
    split at hok
    · cases hok
    · rename_i op _
      split at hok
      · cases hok
      · refine h.refill (Freed.of_zero (u := { t with
          wire := t.wire.eraseP (·.qpIdx = i)
          pendingWqeQs_ := Function.update t.pendingWqeQs_ i ws }) ?_ ?_) hok
        · refine freed_of_wire hwire rfl rfl fun q => ?_
          have hlen : (t.pendingWqeQs_ q).length =
              (Function.update t.pendingWqeQs_ i ws q).length + if q = i then 1 else 0 := by
            by_cases hq : q = i
            · rw [hq, hqueue, Function.update_self, if_pos rfl, List.length_cons]
            · rw [Function.update_of_ne hq, if_neg hq, Nat.add_zero]
          rw [CtranIbVirtualConn.occupied, CtranIbVirtualConn.occupied, hlen]
          exact Nat.add_right_comm ..
        · exact Gains.trans_zero (gains_setOps _ kind rfl) (gains_burnDown _ kind)

theorem InBudget.dataCqe (hok : t.dataCqe i = .ok t') : InBudget c t' := by
  unfold CtranIbVirtualConn.dataCqe at hok
  cases hfind : t.wire.find? (·.qpIdx = i) with
  | none =>
    rw [hfind] at hok
    cases hok
  | some p =>
    have hwire : ∃ p ∈ t.wire, p.qpIdx = i :=
      ⟨p, List.mem_of_find?_eq_some hfind, of_decide_eq_true (List.find?_some hfind :)⟩
    simp only [hfind, opComplete] at hok
    split at hok
    · rename_i f fs hf
      split at hok
      · rename_i hi
        subst hi
        exact h.completeFast hwire hf hok
      · exact h.completeWqe hwire hok
    · exact h.completeWqe hwire hok

theorem InBudget.notifyCqe (hok : t.notifyCqe = .ok t') : InBudget c t' := by
  unfold CtranIbVirtualConn.notifyCqe at hok
  split at hok
  · cases hok
  · unfold notifyComplete at hok
    split at hok
    · cases hok
    · split at hok
      · cases hok
      · cases hok
        exact h.of_zero (gains_sameData (SameData.trans (by constructor <;> rfl)
          (sameData_tryPostImmNotifyMsg _)))

/-! ### Runs -/

theorem InBudget.batchStep {past : List BatchOp} {op : BatchOp}
    (hop : WithinBudget past t op) (hok : t.batchStep op = .ok t') : InBudget c t' := by
  cases op with
  | iputBatch msgs =>
    cases hbatch : t.iputBatch msgs with
    | error e =>
      rw [CtranIbVirtualConn.batchStep, hbatch] at hok
      cases hok
    | ok r =>
      rw [CtranIbVirtualConn.batchStep, hbatch] at hok
      cases hok
      exact h.iputBatch hop hbatch
  | one op =>
    cases op with
    | iput a fast =>
      cases hput : t.issue .put a fast with
      | error e => simp [CtranIbVirtualConn.batchStep, step, iput, hput, Except.map] at hok
      | ok r =>
        simp only [CtranIbVirtualConn.batchStep, step, iput, hput] at hok
        cases hok
        exact h.issue hop hput
    | iget a fast =>
      cases hget : t.issue .get { a with notify := false } fast with
      | error e => simp [CtranIbVirtualConn.batchStep, step, iget, hget, Except.map] at hok
      | ok r =>
        simp only [CtranIbVirtualConn.batchStep, step, iget, hget] at hok
        cases hok
        exact h.issue (a := { a with notify := false }) hop hget
    | notify req =>
      cases hok
      exact h.of_zero (gains_sameData (sameData_notify t req))
    | dataCqe qpIdx => exact h.dataCqe hok
    | notifyCqe => exact h.notifyCqe hok

end

/-- In a run whose operations leave room for what their tests do not count, no data QP ever holds
more work requests than its limit, on the wire or in the queues. -/
theorem inBudget_of_withinBudget (cfg : VcConfig) (ops : List BatchOp)
    (hadm : Admissible batchStep WithinBudget [] { cfg := cfg } ops)
    (hrun : run batchStep { cfg := cfg } ops = .ok t) :
    ∀ q, t.onWire q ≤ t.occupied q ∧ t.occupied q ≤ cfg.maxQpMsgs_ ∧
      cfg.maxQpMsgs_ ≤ MAX_SEND_WR := by
  have hstep : ∀ past (u : CtranIbVirtualConn) op, InBudget cfg u → WithinBudget past u op →
      (∃ u', u.batchStep op = .ok u' ∧ InBudget cfg u') ∨
        ∃ e, u.batchStep op = .error e ∧ True := by
    intro past u op hu hop
    cases hnext : u.batchStep op with
    | error e => exact Or.inr ⟨e, rfl, trivial⟩
    | ok u' => exact Or.inl ⟨u', rfl, hu.batchStep hop hnext⟩
  have hbudget : InBudget cfg t := by
    rcases run_invariant_or_stops (fun _ u => InBudget cfg u) (fun _ => True) hstep ops
      (inBudget_init cfg) hadm with ⟨t', hrun', ht'⟩ | ⟨e, he, -⟩
    · rw [hrun] at hrun'
      cases hrun'
      exact ht'
    · rw [hrun] at he
      cases he
  exact fun q => ⟨hbudget.tracked q, hbudget.bounded q, cfg.maxQpMsgs_le⟩

/-- A get in two work requests, a fast put and a batch fill the QP; a completion makes room. -/
def fillQp : List BatchOp :=
  [.one (.iget ⟨0, 8192, 8192, some [1], [2], false, none, none⟩ false),
    .one (.iput ⟨0, 8192, 64, some [1], [2], true, none, none⟩ true),
    .iputBatch [⟨0, 8192, 64, some [1], [2], true, none, none⟩],
    .one (.dataCqe 0),
    .one (.iput ⟨0, 8192, 64, some [1], [2], true, none, none⟩ true)]

theorem inBudget_of_withinBudget_fillQp : ∃ t, run batchStep { cfg := oneQp } fillQp = .ok t ∧
    t.occupied 0 = 4 ∧ ∀ q, t.onWire q ≤ t.occupied q ∧ t.occupied q ≤ oneQp.maxQpMsgs_ ∧
      oneQp.maxQpMsgs_ ≤ MAX_SEND_WR :=
  ⟨_, rfl, by decide, inBudget_of_withinBudget oneQp fillQp (by decide) rfl⟩

/-- Four fast puts fill the QP, and the test of a fast get does not count them. -/
def overfillQp : List BatchOp :=
  List.replicate 4 (.one (.iput ⟨0, 8192, 64, some [1], [2], true, none, none⟩ true)) ++
    [.one (.iget ⟨0, 8192, 64, some [1], [2], false, none, none⟩ true)]

theorem not_inBudget_overfillQp : ∃ t, run batchStep { cfg := oneQp } overfillQp = .ok t ∧
    oneQp.maxQpMsgs_ < t.onWire 0 :=
  ⟨_, rfl, by decide⟩

end CtranIbVirtualConn
end TorchComms.CtranIb
