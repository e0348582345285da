import TorchComms.CtranIb.VcStep
import Mathlib.Data.List.TakeWhile

/-! # Puts in a batch

A batch goes out over the fast path as one chain of work requests, or else put by put as regular
operations. The puts of a chain are tracked while it is built and the chain is posted at its end, so
that a put without a registration leaves those before it tracked and not posted.
-/
namespace TorchComms.CtranIb
namespace CtranIbVirtualConn

open Foundation

variable {t t' : CtranIbVirtualConn} {kind k : OpKind} {msgs : List OpArgs}

/-! ### The batch -/

/-- `processFastWriteWqe` where there is a registration: the put is tracked. -/
def processFastWriteWqe (t : CtranIbVirtualConn) (putId : ℕ) (put : OpArgs) : CtranIbVirtualConn :=
  setOps { t with
    nextWrId_ := t.nextWrId_ + 1
    sndNxt_ := (t.sndNxt_ + 1) &&& kSeqNumMask } .put
    fun q => { q with fast := q.fast ++ [⟨putId, put.req⟩] }

/-- The work requests of a chain, each with its put; there is none where a registration is
missing. -/
def chainWrs (chain : List (Posted × OpArgs)) :
    List OpArgs → CtranIbVirtualConn → Option (List (Posted × OpArgs)) × CtranIbVirtualConn
  | [], t => (some chain, t)
  | put :: puts, t =>
    match put.ibRegElem with
    | none => (none, t.bump .put)
    | some lkeys => chainWrs (chain ++ [(t.newFast .put put lkeys, put)]) puts
        ((t.bump .put).processFastWriteWqe (t.opId_ .put) put)

/-- `postSend` of a chain. -/
def postChain (t : CtranIbVirtualConn) (chain : List (Posted × OpArgs)) : CtranIbVirtualConn :=
  { t with
    wire := t.wire ++ chain.map Prod.fst
    posted := t.posted ++ chain.map Prod.fst
    issued := t.issued ++ chain.map fun c =>
      ⟨.put, c.1.id, c.2.len, c.2.notify, t.cfg.getOpVcMode c.2.config, true⟩
    requests := t.requests ++ chain.flatMap fun c =>
      (c.2.req.map (Owner.op .put c.1.id, ·)).toList }

/-- `sendChained`. -/
def sendChained (t : CtranIbVirtualConn) (msgs : List OpArgs) : Bool :=
  msgs.all fun put => t.isFastValid .put put.config put.len msgs.length

/-- The fallback: the puts go out one by one until one fails. -/
def iputs : List OpArgs → CtranIbVirtualConn → Except VcFault (CommResult × CtranIbVirtualConn)
  | [], t => .ok (.commSuccess, t)
  | put :: puts, t =>
    match t.iput put false with
    | .error e => .error e
    | .ok (r, t) => if r = .commSuccess then iputs puts t else .ok (r, t)

/-- `iputBatchImpl`. -/
def iputBatch (t : CtranIbVirtualConn) (msgs : List OpArgs) :
    Except VcFault (CommResult × CtranIbVirtualConn) :=
  if msgs = [] then .ok (.commSuccess, t)
  else if t.sendChained msgs then
    match chainWrs [] msgs t with
    | (none, t) => .ok (.commSystemError, t)
    | (some chain, t) => .ok (.commSuccess, t.postChain chain)
  else iputs msgs t

/-! ### All or nothing -/

/-- What a batch that posted nothing must leave as it was. -/
structure Untouched (t t' : CtranIbVirtualConn) : Prop where
  sndNxt : t'.sndNxt_ = t.sndNxt_
  puts : t'.ops .put = t.ops .put
  queues : t'.pendingWqeQs_ = t.pendingWqeQs_

/-- The work request of a chain that writes the buffer of a put. -/
structure Carries (p : Posted) (put : OpArgs) : Prop where
  onFastQp : p.qpIdx = 0
  fast : p.fast = true
  opcode : p.wr.opcode = .RDMA_WRITE_WITH_IMM
  addr : p.wr.addr = put.sbuf
  remoteAddr : p.wr.remoteAddr = put.dbuf
  length : p.wr.length = put.len
  notify : p.wr.immData.testBit kNotifyBit = put.notify

/-- A chain is posted with the puts of a batch in their order, and each is tracked once. -/
structure Chained (t : CtranIbVirtualConn) (msgs : List OpArgs) (chain : List (Posted × OpArgs))
    (t' : CtranIbVirtualConn) : Prop where
  puts : chain.map Prod.snd = msgs
  carries : ∀ c ∈ chain, Carries c.1 c.2
  numbers : chain.map (·.1.id) = List.range' (t.opId_ .put) msgs.length
  posted : t'.posted = t.posted ++ chain.map Prod.fst
  wire : t'.wire = t.wire ++ chain.map Prod.fst
  tracked : (t'.ops .put).fast = (t.ops .put).fast ++ chain.map fun c => ⟨c.1.id, c.2.req⟩

def AllOrNothing (t : CtranIbVirtualConn) (msgs : List OpArgs) : Prop :=
  ∀ r t', t.iputBatch msgs = .ok (r, t') →
    (r ≠ .commSuccess → t'.posted = t.posted → Untouched t t') ∧
      (r = .commSuccess → t.sendChained msgs → ∃ chain, Chained t msgs chain t')

/-- The puts before the first without a registration. -/
def registered (msgs : List OpArgs) : List OpArgs := msgs.takeWhile (·.ibRegElem.isSome)

/-- No QP that `tryToPostOp` comes to from the index `i` on has room. -/
def Full (t : CtranIbVirtualConn) (config : Option CtranIbConfig) (i : ℕ) : Prop :=
  let qps := min (t.cfg.getOpQps config) t.cfg.maxNumQps_
  ∀ q ∈ probes qps qps i, t.opMaxMsgs config ≤ t.load .put q

/-- The configuration of the operation in front once the puts have joined. -/
def frontConfig (t : CtranIbVirtualConn) (puts : List OpArgs) : Option (Option CtranIbConfig) :=
  ((t.ops .put).pending.map (·.config) ++ puts.map (·.config)).head?

/-- None of the regular puts gets a work request out: the first comes to the QPs from the one whose
turn it is, the others from there modulo the QPs of the operation in front. -/
def Stalls (t : CtranIbVirtualConn) (puts : List OpArgs) : Prop :=
  ∃ config ∈ t.frontConfig puts, t.Full config t.qpIdxRR_ ∧
      (2 ≤ puts.length →
        t.Full config (t.qpIdxRR_ % min (t.cfg.getOpQps config) t.cfg.maxNumQps_))

/-- A put without a registration comes after puts that are in the queues and not posted. -/
structure HalfDone (t : CtranIbVirtualConn) (msgs : List OpArgs) : Prop where
  some : registered msgs ≠ []
  notAll : (registered msgs).length < msgs.length
  unposted : t.sendChained msgs ∨ t.Stalls (registered msgs)

/-! ### The chain -/

section Chains

variable {chain chain' : List (Posted × OpArgs)}

/-- A chain under construction: everything but the post itself. -/
structure Linked (t : CtranIbVirtualConn) (msgs : List OpArgs) (chain : List (Posted × OpArgs))
    (t' : CtranIbVirtualConn) : Prop where
  puts : chain.map Prod.snd = msgs
  carries : ∀ c ∈ chain, Carries c.1 c.2
  numbers : chain.map (·.1.id) = List.range' (t.opId_ .put) msgs.length
  next : t'.opId_ .put = t.opId_ .put + msgs.length
  posted : t'.posted = t.posted
  wire : t'.wire = t.wire
  cfg : t'.cfg = t.cfg
  queues : t'.pendingWqeQs_ = t.pendingWqeQs_
  robin : t'.qpIdxRR_ = t.qpIdxRR_
  sndNxt : t.sndNxt_ ≤ kSeqNumMask → t'.sndNxt_ ≤ kSeqNumMask
  getId : t'.opId_ .get = t.opId_ .get
  gets : t'.ops .get = t.ops .get
  pending : (t'.ops .put).pending = (t.ops .put).pending
  outstanding : (t'.ops .put).outstanding = (t.ops .put).outstanding
  tracked : (t'.ops .put).fast = (t.ops .put).fast ++ chain.map fun c => ⟨c.1.id, c.2.req⟩

theorem linked_nil (t : CtranIbVirtualConn) : Linked t [] [] t where
  puts := rfl
  carries _ h := nomatch h
  numbers := rfl
  next := rfl
  posted := rfl
  wire := rfl
  cfg := rfl
  queues := rfl
  robin := rfl
  sndNxt := id
  getId := rfl
  gets := rfl
  pending := rfl
  outstanding := rfl
  tracked := (List.append_nil _).symm

theorem carries_newFast (t : CtranIbVirtualConn) (put : OpArgs) (lkeys : List ℕ) :
    Carries (t.newFast .put put lkeys) put where
  onFastQp := rfl
  fast := rfl
  opcode := rfl
  addr := rfl
  remoteAddr := rfl
  length := rfl
  notify := by
    change Nat.testBit (if put.notify then _ else _) kNotifyBit = put.notify
    cases put.notify <;> decide

theorem Linked.concat (h : Linked t msgs chain t') (put : OpArgs) (lkeys : List ℕ) :
    Linked t (msgs ++ [put]) (chain ++ [(t'.newFast .put put lkeys, put)])
      ((t'.bump .put).processFastWriteWqe (t'.opId_ .put) put) where
  puts := by rw [List.map_append, h.puts, List.map_singleton]
  carries c hc := by
    rcases List.mem_append.mp hc with hc | hc
    · exact h.carries c hc
    · rw [List.mem_singleton.mp hc]
      exact carries_newFast t' put lkeys
  numbers := by
    rw [List.map_append, h.numbers, List.length_append, List.length_singleton,
      List.range'_concat, Nat.one_mul, ← h.next]
    rfl
  next := by
    change Function.update t'.opId_ .put (t'.opId_ .put + 1) .put = _
    rw [Function.update_self, h.next, List.length_append, List.length_singleton, Nat.add_assoc]
  __ := h
  sndNxt _ := Nat.and_le_right
  tracked := by
    have hfast : (((t'.bump .put).processFastWriteWqe (t'.opId_ .put) put).ops .put).fast =
        (t'.ops .put).fast ++ [⟨t'.opId_ .put, put.req⟩] := by
      rw [processFastWriteWqe, ops_setOps_self]
      rfl
    rw [hfast, h.tracked, List.map_append, List.append_assoc]
    rfl

/-- The chain gets as far as the first put without a registration. -/
theorem chainWrs_spec : ∀ (puts : List OpArgs) {msgs : List OpArgs} {t t' : CtranIbVirtualConn}
    {chain : List (Posted × OpArgs)}, Linked t msgs chain t' →
    ∃ chain' t'', Linked t (msgs ++ registered puts) chain' t'' ∧
      chainWrs chain puts t' =
        if (registered puts).length = puts.length then (some chain', t'') else (none, t''.bump .put)
  | [], msgs, t, t', chain, h => ⟨chain, t', by rwa [registered, List.takeWhile_nil,
      List.append_nil], rfl⟩
  | put :: puts, msgs, t, t', chain, h => by
    cases hreg : put.ibRegElem with
    | none =>
      refine ⟨chain, t', ?_, ?_⟩
      · rwa [registered, List.takeWhile_cons_of_neg (by simp [hreg]), List.append_nil]
      · simp [chainWrs, registered, hreg]
    | some lkeys =>
      rcases chainWrs_spec puts (h.concat put lkeys) with ⟨chain', t'', hlinked, hrun⟩
      have hcons : registered (put :: puts) = put :: registered puts :=
        List.takeWhile_cons_of_pos (by simp [hreg])
      refine ⟨chain', t'', ?_, ?_⟩
      · rwa [hcons, List.append_cons]
      · simp only [chainWrs, hreg, hrun, hcons, List.length_cons, Nat.add_right_cancel_iff]

end Chains

/-! ### The fallback -/

section Fallback

variable {config : Option CtranIbConfig} {a : OpArgs} {lkeys : List ℕ} {puts : List OpArgs}

theorem posted_queueOnQp {i : ℕ} (hok : t.queueOnQp kind i = .ok t') :
    (t.ops kind).pending = [] ∧ t' = t ∨ t'.posted.length = t.posted.length + 1 := by
  unfold queueOnQp at hok
  split at hok
  · rename_i hnil
    exact Or.inl ⟨hnil, (Except.ok.inj hok).symm⟩
  · split at hok
    · cases hok
    · cases hok
      exact Or.inr List.length_append

variable {qps maxmsgs : ℕ} {r : CommResult}

theorem posted_postOnNext {sent sent' : Bool}
    (hok : t.postOnNext kind qps maxmsgs sent = .ok (sent', t')) :
    t.posted.length ≤ t'.posted.length ∧
      ((t.ops kind).pending ≠ [] → t.load kind t.qpIdxRR_ < maxmsgs →
        t.posted.length < t'.posted.length) := by
  unfold postOnNext at hok
  split at hok
  · cases hq : t.queueOnQp kind t.qpIdxRR_ with
    | error e =>
      rw [hq] at hok
      cases hok
    | ok u =>
      rw [hq] at hok
      cases hok
      rcases posted_queueOnQp hq with ⟨hnil, rfl⟩ | hlonger
      · exact ⟨Nat.le_refl _, fun hne => absurd hnil hne⟩
      · change _ ≤ u.posted.length ∧ (_ → _ → _ < u.posted.length)
        omega
  · rename_i hfull
    cases hok
    exact ⟨Nat.le_refl _, fun _ hroom => absurd hroom hfull⟩

/-- What the loop over the QPs posts stays posted, and a QP with room gets something. -/
theorem posted_postOnQps : ∀ (n : ℕ) {sent sent' : Bool}
    {t t' : CtranIbVirtualConn}, postOnQps kind qps maxmsgs n sent t = .ok (sent', t') →
    t.posted.length ≤ t'.posted.length ∧
      ((t.ops kind).pending ≠ [] → (∃ q ∈ probes qps n t.qpIdxRR_, t.load kind q < maxmsgs) →
        t.posted.length < t'.posted.length)
  | 0, sent, sent', t, t', hok => by
    cases hok
    exact ⟨Nat.le_refl _, fun _ hq => by simp [probes] at hq⟩
  | n + 1, sent, sent', t, t', hok => by
    cases hnext : t.postOnNext kind qps maxmsgs sent with
    | error e => simp only [postOnQps, hnext, reduceCtorEq] at hok
    | ok r =>
      rcases r with ⟨sent₁, t₁⟩
      simp only [postOnQps, hnext] at hok
      have hfirst := posted_postOnNext hnext
      by_cases hnil : (t₁.ops kind).pending = []
      · rw [if_pos hnil] at hok
        cases hok
        refine ⟨hfirst.1, fun hne _ => ?_⟩
        by_contra hsame
        apply hne
        have hroom := mt (hfirst.2 hne) hsame
        rw [postOnNext, if_neg hroom] at hnext
        cases hnext
        exact hnil
      · rw [if_neg hnil] at hok
        have hrest := posted_postOnQps n hok
        refine ⟨Nat.le_trans hfirst.1 hrest.1, ?_⟩
        rintro hne ⟨q, hq, hload⟩
        by_cases hroom : t.load kind t.qpIdxRR_ < maxmsgs
        · exact Nat.lt_of_lt_of_le (hfirst.2 hne hroom) hrest.1
        · rw [postOnNext, if_neg hroom] at hnext
          cases hnext
          rw [probes, List.mem_cons] at hq
          rcases hq with rfl | hq
          · exact absurd hload hroom
          · exact hrest.2 hne ⟨q, hq, hload⟩

/-- The loop over QPs that are all full only moves on by `n` QPs. -/
theorem postOnQps_full (sent : Bool) : ∀ (n : ℕ) {t : CtranIbVirtualConn},
    (t.ops kind).pending ≠ [] → (∀ q ∈ probes qps (n + 1) t.qpIdxRR_, maxmsgs ≤ t.load kind q) →
    postOnQps kind qps maxmsgs (n + 1) sent t =
      .ok (sent, { t with qpIdxRR_ := (t.qpIdxRR_ + (n + 1)) % qps })
  | n, t, hne, hfull => by
    have hhere := hfull t.qpIdxRR_ (List.mem_cons_self ..)
    have hnext : t.postOnNext kind qps maxmsgs sent = .ok (sent, t.turn qps) := by
      rw [postOnNext, if_neg (Nat.not_lt_of_le hhere)]
    have hpending : ((t.turn qps).ops kind).pending ≠ [] := hne
    rw [postOnQps, hnext]
    simp only [if_neg hpending]
    cases n with
    | zero => rfl
    | succ n =>
      rw [postOnQps_full sent n hpending fun q hq => hfull q (List.mem_cons_of_mem _ hq)]
      simp only [turn, Nat.mod_add_mod]
      rw [Nat.add_right_comm, Nat.add_assoc]

theorem posted_postRound {sent : Bool} (hok : t.postRound kind = .ok (sent, t')) :
    t.posted.length ≤ t'.posted.length ∧
      ∀ op ∈ (t.ops kind).pending.head?,
        (∃ q ∈ t.opQps op.config, t.load kind q < t.opMaxMsgs op.config) →
          t.posted.length < t'.posted.length := by
  unfold postRound at hok
  cases hp : (t.ops kind).pending with
  | nil =>
    rw [hp] at hok
    cases hok
    exact ⟨Nat.le_refl _, fun op hop => by simp at hop⟩
  | cons op rest =>
    simp only [hp] at hok
    have hround := posted_postOnQps _ hok
    refine ⟨hround.1, ?_⟩
    rintro op' hop' hroom
    cases hop'
    exact hround.2 (by simp [hp]) hroom

theorem posted_tryToPostOp (hok : t.tryToPostOp kind = .ok t') :
    t.posted.length ≤ t'.posted.length ∧
      ∀ op ∈ (t.ops kind).pending.head?,
        (∃ q ∈ t.opQps op.config, t.load kind q < t.opMaxMsgs op.config) →
          t.posted.length < t'.posted.length := by
  rw [tryToPostOp, loop] at hok
  cases hround : t.postRound kind with
  | error e =>
    rw [hround] at hok
    cases hok
  | ok r =>
    rcases r with ⟨sent, t₁⟩
    rw [hround] at hok
    have hfirst := posted_postRound hround
    cases sent with
    | false =>
      cases hok
      exact hfirst
    | true =>
      have hrest : t₁.posted.length ≤ t'.posted.length :=
        loop_of_ok (fun u => t₁.posted.length ≤ u.posted.length)
          (fun u c u' hu hle => Nat.le_trans hle (posted_postRound hu).1) (Nat.le_refl _) hok
      exact ⟨Nat.le_trans hfirst.1 hrest,
        fun op hop hroom => Nat.lt_of_lt_of_le (hfirst.2 op hop hroom) hrest⟩

theorem tryToPostOp_full {op : OpInfo} {rest : List OpInfo}
    (hp : (t.ops .put).pending = op :: rest) (hfull : t.Full op.config t.qpIdxRR_) :
    t.tryToPostOp .put = .ok { t with
      qpIdxRR_ := t.qpIdxRR_ % min (t.cfg.getOpQps op.config) t.cfg.maxNumQps_ } := by
  have hpos := VcConfig.getOpQps_pos t.cfg op.config
  have hround : t.postRound .put = .ok (false, { t with
      qpIdxRR_ := t.qpIdxRR_ % min (t.cfg.getOpQps op.config) t.cfg.maxNumQps_ }) := by
    simp only [postRound, hp]
    rw [Full] at hfull
    revert hpos hfull
    generalize min (t.cfg.getOpQps op.config) t.cfg.maxNumQps_ = qps
    intro hfull hpos
    cases qps with
    | zero => exact absurd hpos (Nat.lt_irrefl _)
    | succ n =>
      rw [← Nat.add_mod_right t.qpIdxRR_ (n + 1)]
      exact postOnQps_full false n (by simp [hp]) hfull
  rw [tryToPostOp, loop, hround]

theorem iput_regular (ha : a.ibRegElem = some lkeys) :
    t.iput a false = ((t.pushed .put a lkeys).tryToPostOp .put).map (.commSuccess, ·) := by
  simp only [iput, issue, ha]
  rfl

theorem pushed_pending (t : CtranIbVirtualConn) (a : OpArgs) (lkeys : List ℕ) :
    ((t.pushed .put a lkeys).ops .put).pending =
      (t.ops .put).pending ++ [t.newOp .put a lkeys] := by
  rw [pushed_ops_self]

theorem load_pushed (t : CtranIbVirtualConn) (a : OpArgs) (lkeys : List ℕ) (q : ℕ) :
    (t.pushed .put a lkeys).load .put q = t.load .put q := by
  rw [load, pushed_ops_self]
  rfl

theorem exists_front (hfront : config ∈ t.frontConfig (a :: puts)) (lkeys : List ℕ) :
    ∃ op rest, ((t.pushed .put a lkeys).ops .put).pending = op :: rest ∧ op.config = config := by
  rw [pushed_pending]
  rw [frontConfig] at hfront
  cases hp : (t.ops .put).pending with
  | nil =>
    rw [hp] at hfront
    exact ⟨_, _, rfl, Option.some.inj hfront⟩
  | cons op rest =>
    rw [hp] at hfront
    exact ⟨_, _, rfl, Option.some.inj hfront⟩

/-- A put has joined the pending ones, past QPs that are all full. -/
def waiting (t : CtranIbVirtualConn) (a : OpArgs) (lkeys : List ℕ)
    (config : Option CtranIbConfig) : CtranIbVirtualConn :=
  { t.pushed .put a lkeys with
    qpIdxRR_ := t.qpIdxRR_ % min (t.cfg.getOpQps config) t.cfg.maxNumQps_ }

theorem length_waiting (t : CtranIbVirtualConn) (a : OpArgs) (lkeys : List ℕ)
    (config : Option CtranIbConfig) : ((t.waiting a lkeys config).ops .put).pending.length =
      (t.ops .put).pending.length + 1 := by
  change ((t.pushed .put a lkeys).ops .put).pending.length = _
  rw [pushed_pending, List.length_append, List.length_singleton]

theorem front_waiting (hfront : config ∈ t.frontConfig (a :: puts)) (lkeys : List ℕ)
    (puts' : List OpArgs) : config ∈ (t.waiting a lkeys config).frontConfig puts' := by
  rcases exists_front hfront lkeys with ⟨op, rest, hp, rfl⟩
  rw [frontConfig]
  change op.config ∈ (((t.pushed .put a lkeys).ops .put).pending.map (·.config) ++ _).head?
  rw [hp]
  rfl

theorem full_waiting (t : CtranIbVirtualConn) (a : OpArgs) (lkeys : List ℕ)
    (config : Option CtranIbConfig) (i : ℕ) :
    (t.waiting a lkeys config).Full config i ↔ t.Full config i := by
  have hload : ∀ q, (t.waiting a lkeys config).load .put q = t.load .put q := load_pushed t a lkeys
  simp only [Full, hload]
  exact Iff.rfl

/-- A put whose QPs are all full only joins the pending ones. -/
theorem iput_full (ha : a.ibRegElem = some lkeys) (hfront : config ∈ t.frontConfig (a :: puts))
    (hfull : t.Full config t.qpIdxRR_) :
    t.iput a false = .ok (.commSuccess, t.waiting a lkeys config) := by
  rcases exists_front hfront lkeys with ⟨op, rest, hp, rfl⟩
  rw [iput_regular ha, tryToPostOp_full hp fun q hq => ?_]
  · rfl
  · rw [load_pushed]
    exact hfull q hq

theorem posted_iput (puts : List OpArgs) (ha : a.ibRegElem = some lkeys)
    (hok : t.iput a false = .ok (r, t')) :
    r = .commSuccess ∧ t.posted.length ≤ t'.posted.length ∧
      ∀ config ∈ t.frontConfig (a :: puts), ¬ t.Full config t.qpIdxRR_ →
        t.posted.length < t'.posted.length := by
  rw [iput_regular ha] at hok
  cases hpost : (t.pushed .put a lkeys).tryToPostOp .put with
  | error e =>
    rw [hpost] at hok
    cases hok
  | ok u =>
    rw [hpost] at hok
    cases hok
    have hposted := posted_tryToPostOp hpost
    refine ⟨rfl, hposted.1, ?_⟩
    intro config hfront hroom
    rcases exists_front hfront lkeys with ⟨op, rest, hp, rfl⟩
    apply hposted.2 op (by rw [hp]; rfl)
    by_contra hnone
    apply hroom
    intro q hq
    by_contra hload
    exact hnone ⟨q, hq, by rw [load_pushed]; exact Nat.lt_of_not_le hload⟩

theorem iput_unregistered (ha : a.ibRegElem = none) :
    t.iput a false = .ok (.commSystemError, t) := by
  simp only [iput, issue, ha]

theorem posted_iputs : ∀ {puts : List OpArgs} {t t' : CtranIbVirtualConn} {r : CommResult},
    iputs puts t = .ok (r, t') → t.posted.length ≤ t'.posted.length
  | [], t, t', r, hok => by
    cases hok
    exact Nat.le_refl _
  | a :: puts, t, t', r, hok => by
    cases ha : a.ibRegElem with
    | none =>
      simp only [iputs, iput_unregistered ha] at hok
      rw [if_neg (by decide)] at hok
      cases hok
      exact Nat.le_refl _
    | some lkeys =>
      cases hput : t.iput a false with
      | error e => simp only [iputs, hput, reduceCtorEq] at hok
      | ok s =>
        rcases s with ⟨s, u⟩
        have hposted := posted_iput [] ha hput
        simp only [iputs, hput] at hok
        rw [if_pos hposted.1] at hok
        exact Nat.le_trans hposted.2.1 (posted_iputs hok)

theorem iputs_registered : ∀ {puts : List OpArgs} {t : CtranIbVirtualConn},
    (∀ a ∈ puts, a.ibRegElem.isSome) → iputs puts t = .ok (r, t') → r = .commSuccess
  | [], t, _, hok => by
    cases hok
    rfl
  | a :: puts, t, hall, hok => by
    rcases Option.isSome_iff_exists.mp (hall a (List.mem_cons_self ..)) with ⟨lkeys, ha⟩
    cases hput : t.iput a false with
    | error e => simp only [iputs, hput, reduceCtorEq] at hok
    | ok s =>
      rcases s with ⟨s, u⟩
      simp only [iputs, hput] at hok
      rw [if_pos (posted_iput [] ha hput).1] at hok
      exact iputs_registered (fun b hb => hall b (List.mem_cons_of_mem _ hb)) hok

/-- Puts whose QPs are all full join the pending ones, until one has no registration. -/
theorem iputs_stalled {bad : OpArgs} (more : List OpArgs) (hbad : bad.ibRegElem = none) :
    ∀ {a : OpArgs} {puts : List OpArgs} {t : CtranIbVirtualConn},
      (∀ b ∈ a :: puts, b.ibRegElem.isSome) → t.Stalls (a :: puts) →
      ∃ t', iputs (a :: puts ++ bad :: more) t = .ok (.commSystemError, t') ∧
        t'.posted = t.posted ∧
        (t.ops .put).pending.length < (t'.ops .put).pending.length
  | a, puts, t, hall, ⟨config, hfront, hfull, hrest⟩ => by
    rcases Option.isSome_iff_exists.mp (hall a (List.mem_cons_self ..)) with ⟨lkeys, ha⟩
    have hput := iput_full ha hfront hfull
    have hgrown := length_waiting t a lkeys config
    cases puts with
    | nil =>
      refine ⟨t.waiting a lkeys config, ?_, rfl, by omega⟩
      simp only [List.cons_append, List.nil_append, iputs, hput, if_true, iput_unregistered hbad]
      rw [if_neg (by decide)]
    | cons b puts =>
      have hnext : (t.waiting a lkeys config).Stalls (b :: puts) := by
        refine ⟨config, front_waiting hfront lkeys _, ?_, fun _ => ?_⟩
        · exact (full_waiting t a lkeys config _).mpr (hrest (Nat.le_add_left 2 _))
        · refine (full_waiting t a lkeys config _).mpr ?_
          change t.Full config (_ % _ % min (t.cfg.getOpQps config) t.cfg.maxNumQps_)
          rw [Nat.mod_mod]
          exact hrest (Nat.le_add_left 2 _)
      rcases iputs_stalled more hbad (fun c hc => hall c (List.mem_cons_of_mem _ hc)) hnext with
        ⟨t', hrun, hposted, hlonger⟩
      refine ⟨t', ?_, hposted, by omega⟩
      rw [List.cons_append, iputs, hput]
      simp only [if_true]
      exact hrun

theorem stalls_of_iputs (ha : a.ibRegElem = some lkeys)
    (hall : ∀ b ∈ puts, b.ibRegElem.isSome) {rest : List OpArgs}
    (hok : iputs (a :: puts ++ rest) t = .ok (r, t')) (hposted : t'.posted = t.posted) :
    t.Stalls (a :: puts) := by
  have hfront : ∃ config, config ∈ t.frontConfig (a :: puts) := by
    rw [frontConfig]
    cases (t.ops .put).pending with
    | nil => exact ⟨_, rfl⟩
    | cons op _ => exact ⟨_, rfl⟩
  rcases hfront with ⟨config, hfront⟩
  have hlen := congrArg List.length hposted
  cases hput : t.iput a false with
  | error e => simp only [List.cons_append, iputs, hput, reduceCtorEq] at hok
  | ok s =>
    rcases s with ⟨s, u⟩
    have hfirst := posted_iput puts ha hput
    simp only [List.cons_append, iputs, hput] at hok
    rw [if_pos hfirst.1] at hok
    have hmono := posted_iputs hok
    have hfull : t.Full config t.qpIdxRR_ := by
      by_contra hroom
      have hlonger := hfirst.2.2 config hfront hroom
      omega
    refine ⟨config, hfront, hfull, fun htwo => ?_⟩
    cases puts with
    | nil => exact absurd htwo (by simp)
    | cons b puts =>
      rcases Option.isSome_iff_exists.mp (hall b (List.mem_cons_self ..)) with ⟨bkeys, hb⟩
      rw [iput_full ha hfront hfull] at hput
      cases hput
      cases hsecond : (t.waiting a lkeys config).iput b false with
      | error e => simp only [List.cons_append, iputs, hsecond, reduceCtorEq] at hok
      | ok s =>
        rcases s with ⟨s, v⟩
        have hnext := posted_iput puts hb hsecond
        simp only [List.cons_append, iputs, hsecond] at hok
        rw [if_pos hnext.1] at hok
        have hmono' := posted_iputs hok
        by_contra hroom
        have hlonger := hnext.2.2 config (front_waiting hfront lkeys _) fun hcontra =>
          hroom ((full_waiting t a lkeys config _).mp hcontra)
        change t.posted.length < v.posted.length at hlonger
        omega

end Fallback

/-! ### The result -/

theorem registered_all (msgs : List OpArgs) : ∀ a ∈ registered msgs, a.ibRegElem.isSome :=
  fun _ ha => List.mem_takeWhile_imp (p := fun a : OpArgs => a.ibRegElem.isSome) ha

/-- A put without a registration follows the registered ones, unless they are all. -/
theorem exists_unregistered (hless : (registered msgs).length < msgs.length) :
    ∃ bad more, msgs = registered msgs ++ bad :: more ∧ bad.ibRegElem = none := by
  have hsplit : registered msgs ++ msgs.dropWhile (fun a : OpArgs => a.ibRegElem.isSome) = msgs :=
    List.takeWhile_append_dropWhile
  cases hdrop : msgs.dropWhile (fun a : OpArgs => a.ibRegElem.isSome) with
  | nil =>
    rw [hdrop, List.append_nil] at hsplit
    rw [hsplit] at hless
    exact absurd hless (Nat.lt_irrefl _)
  | cons bad more =>
    rw [hdrop] at hsplit
    refine ⟨bad, more, hsplit.symm, ?_⟩
    have hnot : msgs.dropWhile (fun a : OpArgs => a.ibRegElem.isSome) ≠ [] := by
      rw [hdrop]
      exact List.cons_ne_nil _ _
    simpa [hdrop] using List.head_dropWhile_not (fun a : OpArgs => a.ibRegElem.isSome) hnot

theorem iputBatch_chained (hne : msgs ≠ []) (hchained : t.sendChained msgs) :
    ∃ chain u, Linked t (registered msgs) chain u ∧ t.iputBatch msgs =
      if (registered msgs).length = msgs.length then .ok (.commSuccess, u.postChain chain)
      else .ok (.commSystemError, u.bump .put) := by
  rcases chainWrs_spec msgs (linked_nil t) with ⟨chain, u, hlinked, hrun⟩
  refine ⟨chain, u, hlinked, ?_⟩
  rw [iputBatch, if_neg hne, if_pos hchained, hrun]
  by_cases hall : (registered msgs).length = msgs.length
  · rw [if_pos hall, if_pos hall]
  · rw [if_neg hall, if_neg hall]

theorem iputBatch_fallback (hchained : ¬ t.sendChained msgs) : t.iputBatch msgs = iputs msgs t := by
  rw [iputBatch, if_neg hchained, if_neg]
  rintro rfl
  exact hchained rfl

/-- A batch whose first put has no registration fails at once. -/
theorem untouched_of_first {bad : OpArgs} {more : List OpArgs} (hbad : bad.ibRegElem = none)
    {r : CommResult} (hok : t.iputBatch (bad :: more) = .ok (r, t')) : Untouched t t' := by
  by_cases hchained : t.sendChained (bad :: more)
  · rw [iputBatch, if_neg (List.cons_ne_nil _ _), if_pos hchained] at hok
    simp only [chainWrs, hbad] at hok
    cases hok
    exact ⟨rfl, rfl, rfl⟩
  · rw [iputBatch_fallback hchained] at hok
    simp only [iputs, iput_unregistered hbad] at hok
    rw [if_neg (by decide)] at hok
    cases hok
    exact ⟨rfl, rfl, rfl⟩

theorem untouched_of_not_halfDone (hhalf : ¬ t.HalfDone msgs) {r : CommResult}
    (hok : t.iputBatch msgs = .ok (r, t')) (hr : r ≠ .commSuccess)
    (hposted : t'.posted = t.posted) : Untouched t t' := by
  have hne : msgs ≠ [] := by
    rintro rfl
    cases hok
    exact absurd rfl hr
  have hnotAll : (registered msgs).length < msgs.length := by
    refine Nat.lt_of_le_of_ne (List.takeWhile_sublist _).length_le fun hall => hr ?_
    by_cases hchained : t.sendChained msgs
    · rcases iputBatch_chained hne hchained with ⟨chain, u, _, hrun⟩
      rw [hrun, if_pos hall] at hok
      cases hok
      rfl
    · rw [iputBatch_fallback hchained] at hok
      have heq : registered msgs = msgs := (List.takeWhile_sublist _).eq_of_length hall
      exact iputs_registered (fun a ha => registered_all msgs a (by rwa [heq])) hok
  rcases exists_unregistered hnotAll with ⟨bad, more, hmsgs, hbad⟩
  cases hreg : registered msgs with
  | nil =>
    rw [hreg, List.nil_append] at hmsgs
    rw [hmsgs] at hok
    exact untouched_of_first hbad hok
  | cons a puts =>
    have hchained : ¬ t.sendChained msgs := fun hchained =>
      hhalf ⟨by rw [hreg]; exact List.cons_ne_nil _ _, hnotAll, Or.inl hchained⟩
    have hall := registered_all msgs
    rw [hreg] at hall
    rcases Option.isSome_iff_exists.mp (hall a (List.mem_cons_self ..)) with ⟨lkeys, ha⟩
    rw [iputBatch_fallback hchained, hmsgs, hreg] at hok
    refine absurd ⟨?_, hnotAll, Or.inr ?_⟩ hhalf
    · rw [hreg]
      exact List.cons_ne_nil _ _
    · rw [hreg]
      exact stalls_of_iputs ha (fun b hb => hall b (List.mem_cons_of_mem _ hb)) hok hposted

theorem HalfDone.touched (h : t.HalfDone msgs) : ∃ t', t.iputBatch msgs = .ok (.commSystemError, t') ∧
    t'.posted = t.posted ∧ ¬ Untouched t t' := by
  have hne : msgs ≠ [] := fun hnil => by simpa [hnil] using h.notAll
  by_cases hchained : t.sendChained msgs
  · rcases iputBatch_chained hne hchained with ⟨chain, u, hlinked, hrun⟩
    rw [if_neg (Nat.ne_of_lt h.notAll)] at hrun
    refine ⟨u.bump .put, hrun, hlinked.posted, fun hsame => h.some ?_⟩
    have hfast : (u.ops .put).fast = (t.ops .put).fast := congrArg OpQueues.fast hsame.puts
    rw [hlinked.tracked, List.append_right_eq_self, List.map_eq_nil_iff] at hfast
    rw [← hlinked.puts, hfast]
    rfl
  · rcases exists_unregistered h.notAll with ⟨bad, more, hmsgs, hbad⟩
    have hstalls := h.unposted.resolve_left hchained
    have hall := registered_all msgs
    cases hreg : registered msgs with
    | nil => exact absurd hreg h.some
    | cons a puts =>
      rw [hreg] at hmsgs hall hstalls
      rcases iputs_stalled more hbad hall hstalls with ⟨t', hrun, hposted, hlonger⟩
      refine ⟨t', ?_, hposted, fun hsame => ?_⟩
      · rw [iputBatch_fallback hchained, hmsgs]
        exact hrun
      · rw [hsame.puts] at hlonger
        exact absurd hlonger (Nat.lt_irrefl _)

theorem chained_of_success (hchained : t.sendChained msgs)
    (hok : t.iputBatch msgs = .ok (.commSuccess, t')) : ∃ chain, Chained t msgs chain t' := by
  by_cases hne : msgs = []
  · subst hne
    cases hok
    exact ⟨[], rfl, (fun c hc => nomatch hc), rfl, (List.append_nil _).symm, (List.append_nil _).symm,
      (List.append_nil _).symm⟩
  · rcases iputBatch_chained hne hchained with ⟨chain, u, hlinked, hrun⟩
    rw [hrun] at hok
    by_cases hall : (registered msgs).length = msgs.length
    · rw [if_pos hall] at hok
      cases hok
      have heq : registered msgs = msgs := (List.takeWhile_sublist _).eq_of_length hall
      rw [heq] at hlinked
      refine ⟨chain, hlinked.puts, hlinked.carries, hlinked.numbers, ?_, ?_, hlinked.tracked⟩
      · rw [← hlinked.posted]
        rfl
      · rw [← hlinked.wire]
        rfl
    · rw [if_neg hall] at hok
      cases hok

/-- A batch is all or nothing unless a put without a registration comes after others that were
queued and not posted. -/
theorem iputBatch_allOrNothing_iff (t : CtranIbVirtualConn) (msgs : List OpArgs) :
    t.AllOrNothing msgs ↔ ¬ t.HalfDone msgs := by
  constructor
  · intro h hhalf
    rcases hhalf.touched with ⟨t', hrun, hposted, htouched⟩
    exact htouched ((h _ _ hrun).1 (by decide) hposted)
  · intro hhalf r t' hok
    refine ⟨untouched_of_not_halfDone hhalf hok, ?_⟩
    rintro rfl hchained
    exact chained_of_success hchained hok

/-- Two short puts to a new connection, the second without a registration. -/
def unregisteredSecond : List OpArgs :=
  [⟨0, 8192, 64, some [1], [2], true, none, some 7⟩, ⟨64, 8256, 64, none, [2], true, none, some 8⟩]

/-- The first put is tracked for good although nothing was posted. -/
theorem not_allOrNothing_unregisteredSecond :
    ¬ AllOrNothing { cfg := oneQp } unregisteredSecond := by
  intro h
  have huntouched := (h .commSystemError _ rfl).1 (by decide) rfl
  exact absurd huntouched.sndNxt (by decide)

end CtranIbVirtualConn
end TorchComms.CtranIb
