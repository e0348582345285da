import TorchComms.CtranIb.VcCharging

/-! # What a step of the data path does

Every call and every completion is a chain of the changes whose effect on the queues is known, and
no step of a well-formed run fails.
-/
namespace TorchComms.CtranIb
namespace CtranIbVirtualConn

open Foundation Relation

variable {t t' u : CtranIbVirtualConn} {kind k : OpKind} {op : OpInfo} {rest : List OpInfo}
  {p : Posted} {f : FastOpInfo} {fs : List FastOpInfo}

/-! ### Changes -/

/-- The change of `tryToPostOp` and of a completion that posts what comes next. -/
inductive Posting (kind : OpKind) : CtranIbVirtualConn → CtranIbVirtualConn → Prop where
  | robin (t : CtranIbVirtualConn) (i : ℕ) (hi : i < t.cfg.maxNumQps_) :
      Posting kind t { t with qpIdxRR_ := i }
  | wqe (t : CtranIbVirtualConn) (i : ℕ) (op : OpInfo) (rest : List OpInfo)
      (hi : i < t.cfg.maxNumQps_) (hp : (t.ops kind).pending = op :: rest) :
      Posting kind t (t.postWqe kind i op rest)

/-- The change of `burnDownPuts` and `burnDownGets`. -/
inductive Burning (kind : OpKind) : CtranIbVirtualConn → CtranIbVirtualConn → Prop where
  | one (t : CtranIbVirtualConn) (op : OpInfo) (rest : List OpInfo)
      (hfast : (t.ops kind).fast = []) (hout : (t.ops kind).outstanding = op :: rest)
      (hzero : op.outstandingWqes = 0) (hlen : op.offset = op.len) :
      Burning kind t (t.burnOne kind op rest)

/-- The oldest notification of the notify QP completes. -/
def noticed (t : CtranIbVirtualConn) (n : NotifyInfo) (ns : List NotifyInfo) :
    CtranIbVirtualConn :=
  (completeReq { t with
    notifyWire := t.notifyWire.tail
    outstandingNotifies_ := ns
    notified := t.notified ++ [n] } n.owner n.req).tryPostImmNotifyMsg

theorem sameData_noticed (t : CtranIbVirtualConn) (n : NotifyInfo) (ns : List NotifyInfo) :
    SameData t (t.noticed n ns) := by
  refine SameData.trans ?_ (sameData_tryPostImmNotifyMsg _)
  constructor <;> rfl

inductive Change : CtranIbVirtualConn → CtranIbVirtualConn → Prop where
  | posting (t t' : CtranIbVirtualConn) (kind : OpKind) (h : Posting kind t t') : Change t t'
  | burning (t t' : CtranIbVirtualConn) (kind : OpKind) (h : Burning kind t t') : Change t t'
  | bump (t : CtranIbVirtualConn) (kind : OpKind) : Change t (t.bump kind)
  | push (t : CtranIbVirtualConn) (kind : OpKind) (a : OpArgs) (lkeys : List ℕ)
      (hget : kind = .get → a.notify = false) : Change t (t.pushed kind a lkeys)
  | fast (t : CtranIbVirtualConn) (kind : OpKind) (a : OpArgs) (lkeys : List ℕ)
      (hget : kind = .get → a.notify = false) (hvalid : t.isFastValid kind a.config a.len 1) :
      Change t (t.fastPosted kind a lkeys)
  | wqe (t : CtranIbVirtualConn) (p : Posted) (hp : t.wire.find? (·.qpIdx = p.qpIdx) = some p)
      (hfast : p.fast = false) : Change t (t.retireWqe p)
  | fastDone (t : CtranIbVirtualConn) (p : Posted) (f : FastOpInfo) (fs : List FastOpInfo)
      (hp : t.wire.find? (·.qpIdx = p.qpIdx) = some p) (hfast : p.fast = true)
      (hf : (t.ops p.kind).fast = f :: fs) : Change t (t.retireFast p f fs)
  | notify (t : CtranIbVirtualConn) (req : Option ℕ) : Change t (t.notify req)
  | noticed (t : CtranIbVirtualConn) (n : NotifyInfo) (ns : List NotifyInfo)
      (hout : t.outstandingNotifies_ = n :: ns) : Change t (t.noticed n ns)

/-- The queues agree with the wires. -/
structure Sound (t : CtranIbVirtualConn) : Prop extends Consistent t where
  notices : t.notifyWire = t.outstandingNotifies_.map (·.wrId)

theorem sound_init (cfg : VcConfig) : Sound { cfg := cfg } where
  toConsistent := consistent_init cfg
  notices := rfl

theorem live_of_isFastValid {config : Option CtranIbConfig} {len n : ℕ}
    (h : t.isFastValid kind config len n) : t.live kind = [] := by
  simp only [isFastValid, Bool.and_eq_true, List.isEmpty_iff] at h
  rw [live, h.1.1, h.1.2]
  rfl

section Notices

theorem notices_tryPostImmNotifyMsg (h : t.notifyWire = t.outstandingNotifies_.map (·.wrId)) :
    t.tryPostImmNotifyMsg.notifyWire =
      t.tryPostImmNotifyMsg.outstandingNotifies_.map (·.wrId) := by
  unfold tryPostImmNotifyMsg
  split
  · exact h
  · split
    · exact h
    · rw [List.map_append, ← h]
      rfl

theorem notices_finishOp (h : t.notifyWire = t.outstandingNotifies_.map (·.wrId)) (kind : OpKind)
    (op : OpInfo) : (t.finishOp kind op).notifyWire =
      (t.finishOp kind op).outstandingNotifies_.map (·.wrId) := by
  unfold finishOp
  split
  · exact notices_tryPostImmNotifyMsg h
  · exact h

end Notices

theorem Sound.posting (h : t.Sound) (hpost : Posting kind t t') : t'.Sound := by
  cases hpost with
  | robin i hi => 
    exact ⟨h.toConsistent.of_ops rfl rfl rfl (fun _ => Nat.le_refl _) rfl hi, h.notices⟩
  | wqe i op rest hi hp => exact ⟨h.toConsistent.postWqe hp hi, h.notices⟩

theorem Sound.burning (h : t.Sound) (hburn : Burning kind t t') : t'.Sound := by
  cases hburn with
  | one op rest hfast hout hzero hlen =>
    exact ⟨h.toConsistent.burnOne hout hzero, notices_finishOp h.notices kind op⟩

theorem Sound.change (h : t.Sound) (hchange : Change t t') : t'.Sound := by
  cases hchange with
  | posting _ kind hpost => exact h.posting hpost
  | burning _ kind hburn => exact h.burning hburn
  | bump kind => exact ⟨h.toConsistent.bump kind, h.notices⟩
  | push kind a lkeys hget => exact ⟨h.toConsistent.pushed kind a lkeys, h.notices⟩
  | fast kind a lkeys hget hvalid =>
    exact ⟨h.toConsistent.fastPosted (live_of_isFastValid hvalid) a lkeys, h.notices⟩
  | wqe p hp hfast => exact ⟨h.toConsistent.retireWqe hp hfast, h.notices⟩
  | fastDone p f fs hp hfast hf => exact ⟨h.toConsistent.retireFast hp hfast hf, h.notices⟩
  | notify req =>
    exact ⟨h.toConsistent.of_sameData (sameData_notify t req), notices_tryPostImmNotifyMsg h.notices⟩
  | noticed n ns hout =>
    refine ⟨h.toConsistent.of_sameData (sameData_noticed t n ns), notices_tryPostImmNotifyMsg ?_⟩
    change t.notifyWire.tail = ns.map (·.wrId)
    rw [h.notices, hout]
    rfl

theorem Sound.changes (h : t.Sound) (hchanges : ReflTransGen Change t t') : t'.Sound := by
  induction hchanges with
  | refl => exact h
  | tail _ hlast ih => exact ih.change hlast

theorem changes_of_postings (h : ReflTransGen (Posting kind) t t') : ReflTransGen Change t t' :=
  ReflTransGen.mono (fun _ _ => Change.posting _ _ kind) _ _ h

theorem changes_of_burnings (h : ReflTransGen (Burning kind) t t') : ReflTransGen Change t t' :=
  ReflTransGen.mono (fun _ _ => Change.burning _ _ kind) _ _ h

theorem cfg_burnings (h : ReflTransGen (Burning kind) t t') : t'.cfg = t.cfg := by
  induction h with
  | refl => rfl
  | tail _ hlast ih =>
    cases hlast with
    | one op rest => exact (sameData_finishOp _ kind op).cfg.trans ih

/-! ### Posting -/

theorem cfg_posting (h : Posting kind t t') : t'.cfg = t.cfg := by
  cases h <;> rfl

theorem cfg_postings (h : ReflTransGen (Posting kind) t t') : t'.cfg = t.cfg := by
  induction h with
  | refl => rfl
  | tail _ hlast ih => exact (cfg_posting hlast).trans ih

/-- What the posting of work requests relies on. -/
structure Ready (t : CtranIbVirtualConn) : Prop where
  robin : t.qpIdxRR_ < t.cfg.maxNumQps_
  within : ∀ kind, ∀ op ∈ (t.ops kind).pending, op.offset ≤ op.len

theorem Consistent.ready (h : t.Consistent) : t.Ready := ⟨h.robin, h.within⟩

theorem Ready.posting (h : t.Ready) (hpost : Posting kind t t') : t'.Ready := by
  cases hpost with
  | robin i hi => exact ⟨hi, h.within⟩
  | wqe i op rest hi hp => exact ⟨h.robin, within_postWqe h.within hp i⟩

theorem Ready.postings (h : t.Ready) (hpost : ReflTransGen (Posting kind) t t') : t'.Ready := by
  induction hpost with
  | refl => exact h
  | tail _ hlast ih => exact ih.posting hlast

theorem queueOnQp_cons (h : t.Ready) (hp : (t.ops kind).pending = op :: rest) (i : ℕ) :
    t.queueOnQp kind i = .ok (t.postWqe kind i op rest) := by
  have hwithin := h.within kind op (by simp [hp])
  simp only [queueOnQp, hp]
  rw [if_neg]
  rintro ⟨hfinal, hne⟩
  exact hne ((VcConfig.advance_offset hwithin).2 hfinal)

theorem queueOnQp_nil (hp : (t.ops kind).pending = []) (i : ℕ) : t.queueOnQp kind i = .ok t := by
  simp only [queueOnQp, hp]

variable {lkeys : List ℕ} {a : OpArgs} {i : ℕ}

theorem queueOnQp_spec (h : t.Ready) (kind : OpKind) (hi : i < t.cfg.maxNumQps_) :
    ∃ t', t.queueOnQp kind i = .ok t' ∧ ReflTransGen (Posting kind) t t' := by
  cases hp : (t.ops kind).pending with
  | nil => exact ⟨t, queueOnQp_nil hp i, .refl⟩
  | cons op rest => exact ⟨_, queueOnQp_cons h hp i, .single (.wqe t i op rest hi hp)⟩

theorem backlog_postWqe (h : t.Ready) (hp : (t.ops kind).pending = op :: rest) (i : ℕ) :
    (t.postWqe kind i op rest).backlog kind < t.backlog kind := by
  have hwithin := h.within kind op (by simp [hp])
  have hsize : 0 < t.cfg.maxWqeSize op :=
    Nat.lt_min.mpr ⟨t.cfg.maxMsgSize_pos, Nat.lt_of_lt_of_le t.cfg.mtu_pos (Nat.le_max_right ..)⟩
  rw [backlog, backlog, postWqe_ops_self, hp, OpQueues.advance]
  split
  · simp only [List.map_cons, List.sum_cons]
    omega
  · rename_i hfinal
    have hshort : t.cfg.toSend op ≠ op.len - op.offset := fun hall => hfinal (decide_eq_true hall)
    have hmin : t.cfg.toSend op = min (op.len - op.offset) (t.cfg.maxWqeSize op) := rfl
    simp only [List.map_cons, List.sum_cons]
    change op.len - (op.offset + t.cfg.toSend op) + 1 + _ < _
    omega

/-- The QPs that a loop of `n` rounds comes to. -/
def probes (qps : ℕ) : ℕ → ℕ → List ℕ
  | 0, _ => []
  | n + 1, i => i :: probes qps n ((i + 1) % qps)

/-- A stretch of the loop over the QPs: whether it posted shows in the backlog. -/
structure Posts (kind : OpKind) (t t' : CtranIbVirtualConn) (sent sent' : Bool) : Prop where
  chain : ReflTransGen (Posting kind) t t'
  backlog : t'.backlog kind ≤ t.backlog kind
  sent : sent' = true → sent = true ∨ t'.backlog kind < t.backlog kind

theorem Posts.trans {s s' s'' : Bool} (h : Posts kind t u s s') (h' : Posts kind u t' s' s'') :
    Posts kind t t' s s'' where
  chain := h.chain.trans h'.chain
  backlog := Nat.le_trans h'.backlog h.backlog
  sent htrue := by
    rcases h'.sent htrue with hs | hlt
    · rcases h.sent hs with hs | hlt
      · exact Or.inl hs
      · exact Or.inr (Nat.lt_of_le_of_lt h'.backlog hlt)
    · exact Or.inr (Nat.lt_of_lt_of_le hlt h.backlog)

theorem posts_turn (kind : OpKind) (sent : Bool) {qps : ℕ} (hqps : 0 < qps)
    (hle : qps ≤ t.cfg.maxNumQps_) : Posts kind t (t.turn qps) sent sent where
  chain := .single (.robin t _ (Nat.lt_of_lt_of_le (Nat.mod_lt _ hqps) hle))
  backlog := Nat.le_refl _
  sent := Or.inl

theorem posts_wqe (h : t.Ready) (hi : i < t.cfg.maxNumQps_)
    (hp : (t.ops kind).pending = op :: rest) (sent : Bool) :
    Posts kind t (t.postWqe kind i op rest) sent true where
  chain := .single (.wqe t i op rest hi hp)
  backlog := Nat.le_of_lt (backlog_postWqe h hp i)
  sent _ := Or.inr (backlog_postWqe h hp i)

section Rounds

variable {qps : ℕ} (hqps : 0 < qps) (maxmsgs : ℕ)
include hqps

theorem postOnNext_spec (h : t.Ready) (hle : qps ≤ t.cfg.maxNumQps_)
    (hne : (t.ops kind).pending ≠ []) (sent : Bool) :
    ∃ sent' t', t.postOnNext kind qps maxmsgs sent = .ok (sent', t') ∧ Posts kind t t' sent sent' ∧
      (t.load kind t.qpIdxRR_ < maxmsgs ∧ t'.backlog kind < t.backlog kind ∨
        maxmsgs ≤ t.load kind t.qpIdxRR_ ∧ t' = t.turn qps) := by
  rw [postOnNext]
  by_cases hroom : t.load kind t.qpIdxRR_ < maxmsgs
  · cases hp : (t.ops kind).pending with
    | nil => exact absurd hp hne
    | cons op rest =>
      rw [if_pos hroom, queueOnQp_cons h hp]
      exact ⟨true, _, rfl, (posts_wqe h h.robin hp sent).trans
        (posts_turn kind true hqps hle), Or.inl ⟨hroom, backlog_postWqe h hp _⟩⟩
  · rw [if_neg hroom]
    exact ⟨sent, _, rfl, posts_turn kind sent hqps hle, Or.inr ⟨Nat.le_of_not_lt hroom, rfl⟩⟩

/-- The loop over the QPs posts if one of those that it comes to has room. -/
theorem postOnQps_spec : ∀ (n : ℕ) (sent : Bool) (t : CtranIbVirtualConn), t.Ready →
    qps ≤ t.cfg.maxNumQps_ → (t.ops kind).pending ≠ [] →
    ∃ sent' t', postOnQps kind qps maxmsgs n sent t = .ok (sent', t') ∧ Posts kind t t' sent sent' ∧
      ((∃ q ∈ probes qps n t.qpIdxRR_, t.load kind q < maxmsgs) → t'.backlog kind < t.backlog kind)
  | 0, sent, t, _, _, _ => ⟨sent, t, rfl, ⟨.refl, Nat.le_refl _, Or.inl⟩, by simp [probes]⟩
  | n + 1, sent, t, h, hle, hne => by
    rcases postOnNext_spec hqps maxmsgs h hle hne sent with ⟨sent₁, t₁, hrun₁, hposts₁, hcase⟩
    have h₁ := h.postings hposts₁.chain
    have hle₁ : qps ≤ t₁.cfg.maxNumQps_ := by
      rw [cfg_postings hposts₁.chain]
      exact hle
    simp only [postOnQps, hrun₁]
    by_cases hne₁ : (t₁.ops kind).pending = []
    · rw [if_pos hne₁]
      refine ⟨sent₁, t₁, rfl, hposts₁, fun _ => ?_⟩
      rcases hcase with ⟨_, hless⟩ | ⟨_, rfl⟩
      · exact hless
      · exact absurd hne₁ hne
    · rw [if_neg hne₁]
      rcases postOnQps_spec n sent₁ t₁ h₁ hle₁ hne₁ with ⟨sent₂, t₂, hrun₂, hposts₂, hfree⟩
      refine ⟨sent₂, t₂, hrun₂, hposts₁.trans hposts₂, ?_⟩
      rintro ⟨q, hq, hload⟩
      rcases hcase with ⟨_, hless⟩ | ⟨hfull, rfl⟩
      · exact Nat.lt_of_le_of_lt hposts₂.backlog hless
      · rw [probes, List.mem_cons] at hq
        rcases hq with rfl | hq
        · exact absurd hload (Nat.not_lt_of_le hfull)
        · exact hfree ⟨q, hq, hload⟩

end Rounds

/-- The QPs that `tryToPostOp` comes to for an operation, from the one whose turn it is. -/
def opQps (t : CtranIbVirtualConn) (config : Option CtranIbConfig) : List ℕ :=
  let qps := min (t.cfg.getOpQps config) t.cfg.maxNumQps_
  probes qps qps t.qpIdxRR_

def opMaxMsgs (t : CtranIbVirtualConn) (config : Option CtranIbConfig) : ℕ :=
  min (t.cfg.getOpMaxQpMsgs config) t.cfg.maxQpMsgs_

theorem VcConfig.getOpQps_pos (c : VcConfig) (config : Option CtranIbConfig) :
    0 < min (c.getOpQps config) c.maxNumQps_ := by
  refine Nat.lt_min.mpr ⟨?_, c.maxNumQps_pos⟩
  cases config with
  | none => exact c.maxNumQps_pos
  | some config => exact config.numQps_pos

theorem postRound_spec (h : t.Ready) (hp : (t.ops kind).pending = op :: rest) :
    ∃ sent t', t.postRound kind = .ok (sent, t') ∧ ReflTransGen (Posting kind) t t' ∧
      (sent = true → t'.backlog kind < t.backlog kind) ∧
      ((∃ q ∈ t.opQps op.config, t.load kind q < t.opMaxMsgs op.config) →
        t'.backlog kind < t.backlog kind) := by
  have hqps := VcConfig.getOpQps_pos t.cfg op.config
  have hne : (t.ops kind).pending ≠ [] := by simp [hp]
  rcases postOnQps_spec hqps (t.opMaxMsgs op.config)
      (min (t.cfg.getOpQps op.config) t.cfg.maxNumQps_) false t h (Nat.min_le_right ..)
      hne with ⟨sent, t', hrun, hposts, hfree⟩
  refine ⟨sent, t', ?_, hposts.chain, fun htrue => ?_, hfree⟩
  · simp only [postRound, hp]
    exact hrun
  · rcases hposts.sent htrue with hfalse | hless
    · cases hfalse
    · exact hless

theorem backlog_postings (h : t.Ready) (hpost : ReflTransGen (Posting kind) t t') :
    t'.backlog kind ≤ t.backlog kind := by
  induction hpost with
  | refl => exact Nat.le_refl _
  | tail hinit hlast ih =>
    have hready := h.postings hinit
    cases hlast with
    | robin i hi => exact ih
    | wqe i op rest hi hp =>
      exact Nat.le_trans (Nat.le_of_lt (backlog_postWqe hready hp i)) ih

theorem tryToPostOp_spec (h : t.Ready) (kind : OpKind) :
    ∃ t', t.tryToPostOp kind = .ok t' ∧ ReflTransGen (Posting kind) t t' ∧
      ∀ op rest, (t.ops kind).pending = op :: rest →
        (∃ q ∈ t.opQps op.config, t.load kind q < t.opMaxMsgs op.config) →
        t'.backlog kind < t.backlog kind := by
  have hloop : ∀ (fuel : ℕ) (u : CtranIbVirtualConn), u.Ready → u.backlog kind < fuel →
      ∃ t', loop VcFault.diverged (fun t => t.postRound kind) fuel u = .ok t' ∧
        ReflTransGen (Posting kind) u t' := by
    intro fuel u hu hfuel
    apply loop_invariant (fun v => v.Ready ∧ ReflTransGen (Posting kind) u v)
      (fun v => ReflTransGen (Posting kind) u v) (fun v => v.backlog kind) _ ⟨hu, .refl⟩ hfuel
    rintro v ⟨hv, hchain⟩
    cases hp : (v.ops kind).pending with
    | nil =>
      refine ⟨false, v, ?_, (by simp), fun _ => hchain⟩
      simp only [postRound, hp]
    | cons op rest =>
      rcases postRound_spec hv hp with ⟨sent, v', hrun, hposts, hsent, _⟩
      exact ⟨sent, v', hrun, fun htrue => ⟨⟨hv.postings hposts,
        hchain.trans hposts⟩, hsent htrue⟩, fun _ => hchain.trans hposts⟩
  cases hp : (t.ops kind).pending with
  | nil =>
    rcases hloop _ t h (Nat.lt_succ_self _) with ⟨t', hrun, hchain⟩
    exact ⟨t', hrun, hchain, fun op rest hcons => nomatch hcons⟩
  | cons op rest =>
    rcases postRound_spec h hp with ⟨sent, t₁, hround, hchain₁, hsent, hfree⟩
    have h₁ := h.postings hchain₁
    have hrest : ∃ t', t.tryToPostOp kind = .ok t' ∧ ReflTransGen (Posting kind) t₁ t' := by
      simp only [tryToPostOp, loop, hround]
      cases sent with
      | false => exact ⟨t₁, rfl, .refl⟩
      | true => exact hloop _ t₁ h₁ (hsent rfl)
    rcases hrest with ⟨t', hrun, hchain⟩
    refine ⟨t', hrun, hchain₁.trans hchain, ?_⟩
    rintro op' rest' hcons hroom
    cases hcons
    exact Nat.lt_of_le_of_lt (backlog_postings h₁ hchain) (hfree hroom)

/-! ### Accepting -/

theorem issue_regular (h : t.Sound) (ha : a.ibRegElem = some lkeys) (kind : OpKind) :
    ∃ t', t.issue kind a false = .ok (.commSuccess, t') ∧
      ReflTransGen (Posting kind) (t.pushed kind a lkeys) t' ∧
      ((t.ops kind).pending = [] → (∃ q ∈ t.opQps a.config, t.load kind q < t.opMaxMsgs a.config) →
        t'.backlog kind < (t.pushed kind a lkeys).backlog kind) := by
  have hpushed : (t.pushed kind a lkeys).Sound := ⟨h.toConsistent.pushed kind a lkeys, h.notices⟩
  rcases tryToPostOp_spec hpushed.toConsistent.ready kind with ⟨t', hrun, hchain, hfree⟩
  refine ⟨t', ?_, hchain, ?_⟩
  · simp only [issue, ha]
    change Except.map _ ((t.pushed kind a lkeys).tryToPostOp kind) = _
    rw [hrun]
    rfl
  · rintro hnone ⟨q, hq, hload⟩
    apply hfree (t.newOp kind a lkeys) []
    · rw [pushed_ops_self, hnone]
      rfl
    · refine ⟨q, hq, ?_⟩
      have hsame : (t.pushed kind a lkeys).load kind q = t.load kind q := by
        rw [load, pushed_ops_self]
        rfl
      rw [hsame]
      exact hload

theorem issue_fast (ha : a.ibRegElem = some lkeys) (kind : OpKind) :
    t.isFastValid kind a.config a.len 1 ∧
        t.issue kind a true = .ok (.commSuccess, t.fastPosted kind a lkeys) ∨
      t.isFastValid kind a.config a.len 1 = false ∧
        t.issue kind a true = .ok (.commSystemError, t.bump kind) := by
  simp only [issue, ha]
  change _ ∧ (if (t.isFastValid kind a.config a.len 1 : Bool) then _ else _) = _ ∨
    _ ∧ (if (t.isFastValid kind a.config a.len 1 : Bool) then _ else _) = _
  cases hvalid : t.isFastValid kind a.config a.len 1 with
  | true => exact Or.inl ⟨rfl, rfl⟩
  | false => exact Or.inr ⟨rfl, rfl⟩

/-! ### Completing -/

/-- The first outstanding operation still waits for something. -/
def Burned (t : CtranIbVirtualConn) (kind : OpKind) : Prop :=
  (t.ops kind).fast = [] → ∀ op ∈ (t.ops kind).outstanding.head?, 0 < op.outstandingWqes

theorem burnDownFrom_spec (kind : OpKind) : ∀ (l : List OpInfo) (t : CtranIbVirtualConn), t.Sound →
    (t.ops kind).fast = [] → (t.ops kind).outstanding = l →
    ReflTransGen (Burning kind) t (burnDownFrom kind l t) ∧ (burnDownFrom kind l t).Burned kind
  | [], t, _, _, hl => by
    refine ⟨.refl, fun _ op hop => ?_⟩
    rw [burnDownFrom, hl] at hop
    cases hop
  | op :: rest, t, h, hfast, hl => by
    rw [burnDownFrom]
    have hsent := h.sent kind op (by simp [hl])
    split
    · rename_i hwaits
      refine ⟨.refl, fun _ op' hop' => ?_⟩
      rw [hl] at hop'
      cases hop'
      omega
    · rename_i hdone
      have hburn : Burning kind t (t.burnOne kind op rest) :=
        .one t op rest hfast hl (by omega) hsent
      have hself := burnOne_ops_self t kind op rest
      rcases burnDownFrom_spec kind rest _ (h.burning hburn) (by rw [hself]; exact hfast)
        (by rw [hself]) with ⟨hchain, hburned⟩
      exact ⟨.head hburn hchain, hburned⟩

theorem burnDown_spec (h : t.Sound) (kind : OpKind) :
    ReflTransGen (Burning kind) t (t.burnDown kind) ∧ (t.burnDown kind).Burned kind := by
  rw [burnDown]
  split
  · rename_i hfast
    exact burnDownFrom_spec kind _ t h hfast rfl
  · rename_i hfast
    exact ⟨.refl, fun hnone => absurd hnone hfast⟩

/-- The completion of a work request is taken from the wire and from the queues. -/
inductive Taking (t : CtranIbVirtualConn) (p : Posted) : CtranIbVirtualConn → Prop where
  | wqe (hfast : p.fast = false) : Taking t p (t.retireWqe p)
  | fast (f : FastOpInfo) (fs : List FastOpInfo) (hfast : p.fast = true)
      (hf : (t.ops p.kind).fast = f :: fs) : Taking t p (t.retireFast p f fs)

theorem Taking.change (h : Taking t p t') (hp : t.wire.find? (·.qpIdx = p.qpIdx) = some p) :
    Change t t' := by
  cases h with
  | wqe hfast => exact .wqe t p hp hfast
  | fast f fs hfast hf => exact .fastDone t p f fs hp hfast hf

theorem taking_wire (h : Taking t p t') : t'.wire = t.wire.eraseP (·.qpIdx = p.qpIdx) := by
  cases h <;> rfl

theorem fast_eq_nil_of_wqe (h : t.Consistent) (hp : t.wire.find? (·.qpIdx = p.qpIdx) = some p)
    (hfast : p.fast = false) (hq : p.qpIdx = 0) : (t.ops p.kind).fast = [] := by
  rw [← List.map_eq_nil_iff, h.fasts p.kind, List.map_eq_nil_iff, List.filter_eq_nil_iff]
  intro p' hp' hkeep
  rw [Bool.and_eq_true, decide_eq_true_eq] at hkeep
  rcases split_of_find? hp with ⟨before, after, hwire, hbefore, -, -⟩
  have hfirst := h.fastFirst
  rw [hwire, List.pairwise_append, List.pairwise_cons] at hfirst
  rw [hwire, List.mem_append, List.mem_cons] at hp'
  rcases hp' with hmem | rfl | hmem
  · have hother := hbefore p' hmem
    rw [decide_eq_false_iff_not, hq] at hother
    exact hother (h.fastQp p' (by simp [hwire, hmem]) hkeep.1)
  · rw [hfast] at hkeep
    cases hkeep.1
  · have hcontra := hfirst.2.1.1 p' hmem hkeep.1 hkeep.2.symm
    rw [hfast] at hcontra
    cases hcontra

theorem opComplete_fast (hf : (t.ops kind).fast = f :: fs) (wrId : ℕ) :
    t.opComplete kind 0 wrId = (((t.completeReq (.op kind f.id) f.req).setOps kind
      fun q => { q with fast := fs }).burnDown kind).queueOnQp kind 0 := by
  simp only [opComplete, hf, if_true, completeFast]
  split
  · rfl
  · rename_i hne
    rw [burnDown, if_neg]
    rw [ops_setOps_self]
    exact hne

theorem opComplete_wqe {i wrId : ℕ} {w : WqeInfo} {ws : List WqeInfo}
    (hfast : i = 0 → (t.ops kind).fast = []) (hqueue : t.pendingWqeQs_ i = w :: ws)
    (hkind : w.kind = kind) (hwr : w.wrId = wrId)
    (hfind : (t.live kind).find? (·.id = w.id) = some op) (hpos : op.outstandingWqes ≠ 0) :
    t.opComplete kind i wrId =
      ((setOps { t with pendingWqeQs_ := Function.update t.pendingWqeQs_ i ws } kind
        (OpQueues.retire · op.id)).burnDown kind).queueOnQp kind i := by
  have hwqe : t.opComplete kind i wrId = t.completeWqe kind i wrId := by
    rw [opComplete]
    split
    · rename_i hf
      rw [if_neg]
      intro hi
      rw [hfast hi] at hf
      cases hf
    · rfl
  rw [hwqe]
  simp only [completeWqe, hqueue, hkind, if_true, hfind]
  rw [if_neg]
  rintro (hne | hzero)
  · exact hne hwr
  · exact hpos hzero

theorem find_of_wqe (h : t.Consistent) (hp : p ∈ t.wire) (hfast : p.fast = false) :
    ∃ op, (t.live p.kind).find? (·.id = p.id) = some op ∧ op.id = p.id ∧ op.outstandingWqes ≠ 0 := by
  rcases List.mem_map.mp (h.owned p hp hfast) with ⟨op, hop, hid⟩
  rcases exists_find? (fun op : OpInfo => decide (op.id = p.id)) hop (decide_eq_true hid) with
    ⟨op', hfind, hown⟩
  have hid' : op'.id = p.id := of_decide_eq_true hown
  refine ⟨op', hfind, hid', ?_⟩
  rw [h.counted p.kind op' (List.mem_of_find?_eq_some hfind), inFlight, ← Nat.pos_iff_ne_zero,
    List.countP_pos_iff]
  exact ⟨p, hp, Posted.isOf_iff.mpr ⟨hfast, rfl, hid'.symm⟩⟩

theorem dataCqe_eq (h : t.Consistent) (hp : t.wire.find? (·.qpIdx = p.qpIdx) = some p) :
    ∃ t₁, Taking t p t₁ ∧
      t.dataCqe p.qpIdx = (t₁.burnDown p.kind).queueOnQp p.kind p.qpIdx := by
  have hmem : p ∈ t.wire := List.mem_of_find?_eq_some hp
  simp only [dataCqe, hp]
  cases hfast : p.fast with
  | true =>
    have hq := h.fastQp p hmem hfast
    cases hf : (t.ops p.kind).fast with
    | nil =>
      have hnone := h.fasts p.kind
      rw [hf, List.map_nil, eq_comm, List.map_eq_nil_iff, List.filter_eq_nil_iff] at hnone
      exact absurd (by simp [hfast]) (hnone p hmem)
    | cons f fs =>
      refine ⟨_, .fast f fs hfast hf, ?_⟩
      have hcomplete := opComplete_fast (t := { t with wire := t.wire.eraseP (·.qpIdx = p.qpIdx) })
        hf p.wr.wrId
      rw [← hq] at hcomplete
      exact hcomplete
  | false =>
    have hqueue := h.queues p.qpIdx
    rw [filter_eq_cons_of_find? hp (by simp [hfast]) (by simp), List.map_cons] at hqueue
    rcases find_of_wqe h hmem hfast with ⟨op, hfind, hid, hpos⟩
    refine ⟨_, .wqe hfast, ?_⟩
    have hnil : p.qpIdx = 0 → (t.ops p.kind).fast = [] := fast_eq_nil_of_wqe h hp hfast
    have hcomplete := opComplete_wqe (t := { t with wire := t.wire.eraseP (·.qpIdx = p.qpIdx) })
      hnil hqueue rfl rfl hfind hpos
    rw [retireWqe, hqueue, ← hid]
    exact hcomplete

/-- A completion is charged to the operation of its work request, completed operations are burned
down, and the next work request is posted on the same QP. -/
theorem dataCqe_spec (h : t.Sound) (hp : t.wire.find? (·.qpIdx = p.qpIdx) = some p) :
    ∃ t₁ t₂ t', t.dataCqe p.qpIdx = .ok t' ∧ Taking t p t₁ ∧
      ReflTransGen (Burning p.kind) t₁ t₂ ∧ t₂.Burned p.kind ∧
      t₂.queueOnQp p.kind p.qpIdx = .ok t' ∧ ReflTransGen (Posting p.kind) t₂ t' := by
  rcases dataCqe_eq h.toConsistent hp with ⟨t₁, htaking, hrun⟩
  have h₁ := h.change (htaking.change hp)
  rcases burnDown_spec h₁ p.kind with ⟨hchain, hburned⟩
  have h₂ := h₁.changes (changes_of_burnings hchain)
  have hcfg : (t₁.burnDown p.kind).cfg = t.cfg := by
    rw [cfg_burnings hchain]
    cases htaking <;> rfl
  have hrange : p.qpIdx < (t₁.burnDown p.kind).cfg.maxNumQps_ := by
    rw [hcfg]
    exact h.inRange p (List.mem_of_find?_eq_some hp)
  rcases queueOnQp_spec h₂.toConsistent.ready p.kind hrange with ⟨t', hqueue, hpost⟩
  exact ⟨t₁, _, t', hrun.trans hqueue, htaking, hchain, hburned, hqueue, hpost⟩

theorem notifyCqe_spec (h : t.Sound) (hne : t.notifyWire ≠ []) :
    ∃ n ns, t.outstandingNotifies_ = n :: ns ∧ t.notifyCqe = .ok (t.noticed n ns) := by
  cases hout : t.outstandingNotifies_ with
  | nil =>
    have hnotices := h.notices
    rw [hout] at hnotices
    exact absurd hnotices hne
  | cons n ns =>
    have hnotices := h.notices
    rw [hout, List.map_cons] at hnotices
    refine ⟨n, ns, rfl, ?_⟩
    simp only [notifyCqe, hnotices, notifyComplete, hout, noticed]
    rw [if_neg (by simp)]
    rfl

theorem find_of_wellFormed {qpIdx : ℕ} (h : ∃ p ∈ t.wire, p.qpIdx = qpIdx) :
    ∃ p, t.wire.find? (·.qpIdx = p.qpIdx) = some p ∧ p.qpIdx = qpIdx := by
  rcases h with ⟨p, hp, hq⟩
  rcases exists_find? (fun p : Posted => decide (p.qpIdx = qpIdx)) hp (decide_eq_true hq) with
    ⟨p', hp', hown⟩
  have hq' : p'.qpIdx = qpIdx := of_decide_eq_true hown
  refine ⟨p', ?_, hq'⟩
  rw [hq']
  exact hp'

theorem step_spec (h : t.Sound) {past : List Op} {op : Op} (hop : WellFormed past t op) :
    ∃ t', t.step op = .ok t' ∧ ReflTransGen Change t t' := by
  have hissue : ∀ (kind : OpKind) (a : OpArgs) (fast : Bool), (kind = .get → a.notify = false) →
      ∃ r, t.issue kind a fast = .ok r ∧ ReflTransGen Change t r.2 := by
    intro kind a fast hget
    cases ha : a.ibRegElem with
    | none => exact ⟨(.commSystemError, t), by simp [issue, ha], .refl⟩
    | some lkeys =>
      cases fast with
      | true =>
        rcases issue_fast ha kind with ⟨hvalid, hrun⟩ | ⟨_, hrun⟩
        · exact ⟨_, hrun, .single (.fast t kind a lkeys hget hvalid)⟩
        · exact ⟨_, hrun, .single (.bump t kind)⟩
      | false =>
        rcases issue_regular h ha kind with ⟨t', hrun, hchain, _⟩
        exact ⟨_, hrun, .head (.push t kind a lkeys hget) (changes_of_postings hchain)⟩
  cases op with
  | iput a fast =>
    rcases hissue .put a fast (fun hk => nomatch hk) with ⟨r, hrun, hchain⟩
    exact ⟨r.2, by simp [step, iput, hrun, Except.map], hchain⟩
  | iget a fast =>
    rcases hissue .get { a with notify := false } fast (fun _ => rfl) with ⟨r, hrun, hchain⟩
    exact ⟨r.2, by simp [step, iget, hrun, Except.map], hchain⟩
  | notify req => exact ⟨_, rfl, .single (.notify t req)⟩
  | dataCqe qpIdx =>
    rcases find_of_wellFormed hop with ⟨p, hp, rfl⟩
    rcases dataCqe_spec h hp with ⟨t₁, t₂, t', hrun, htaking, hburn, _, _, hpost⟩
    exact ⟨t', hrun, .head (htaking.change hp)
      ((changes_of_burnings hburn).trans (changes_of_postings hpost))⟩
  | notifyCqe =>
    rcases notifyCqe_spec h hop with ⟨n, ns, hout, hrun⟩
    exact ⟨_, hrun, .single (.noticed t n ns hout)⟩

end CtranIbVirtualConn
end TorchComms.CtranIb
