import TorchComms.CtranIb.CtrlMsg
import TorchComms.Foundation.Rendezvous

/-! # Delivery of control messages

Every message sent is processed by the receiver, has arrived, is on the QP, or waits for a free
packet, in this order from the oldest to the newest. The messages without a callback and the
posted receives are two streams matched in order.
-/
namespace TorchComms.CtranIb.CtrlLink

open Foundation

/-! ### What was sent and what was to be received -/

/-- The content of a message. -/
abbrev Body := ℤ × List UInt8

def bodyOf (p : CtrlPacket) : Body := (p.type, p.payload)

def wrBody (wr : ControlPendingSendWr) : Body := (wr.type, wr.payload)

def sends (ops : List Op) : List ControlPendingSendWr :=
  ops.filterMap fun | .isendCtrlMsg wr => some wr | _ => none

def recvs (ops : List Op) : List ControlPostedRecvWr :=
  ops.filterMap fun | .irecvCtrlMsg wr => some wr | _ => none

/-- The messages that need a receive. -/
def plain (hasCb : ℤ → Bool) (bs : List Body) : List Body := bs.filter fun b => !hasCb b.1

/-- The messages that run a callback. -/
def withCb (hasCb : ℤ → Bool) (bs : List Body) : List Body := bs.filter fun b => hasCb b.1

/-- What a receive matched with a message leaves behind. -/
def fill (b : Body) (wr : ControlPostedRecvWr) : Req × List UInt8 := (wr.req, b.2)

/-- The `k`-th message without a callback has the size of the `k`-th receive. -/
def SizesMatch (hasCb : ℤ → Bool) (M : List ControlPendingSendWr)
    (R : List ControlPostedRecvWr) : Prop :=
  ∀ p ∈ (plain hasCb (M.map wrBody)).zip R, p.1.2.length = p.2.size

/-- What the interface asks of a receive: room for its message. -/
def RoomFor (hasCb : ℤ → Bool) (M : List ControlPendingSendWr)
    (R : List ControlPostedRecvWr) : Prop :=
  ∀ p ∈ (plain hasCb (M.map wrBody)).zip R, p.1.2.length ≤ p.2.size

/-! ### The invariant -/

variable {hasCb : ℤ → Bool} {M : List ControlPendingSendWr} {R : List ControlPostedRecvWr}
  {s s' : CtrlLink} {P : List Body}

/-- After the sends `M` and the receives `R`, the receiver has processed the messages `P`. -/
structure Carries (hasCb : ℤ → Bool) (M : List ControlPendingSendWr)
    (R : List ControlPostedRecvWr) (P : List Body) (s : CtrlLink) : Prop where
  reqs : M.map ControlPendingSendWr.req =
    s.sent ++ s.sendCtrl_.postedReqs_ ++ s.sendCtrl_.enqueuedWrs_.map ControlPendingSendWr.req
  bodies : M.map wrBody = P ++
    (s.recvCtrl_.postedPkts_.take s.qp.recvCqes).map (fun i => bodyOf (s.recvCtrl_.packets_ i)) ++
    s.qp.sq.map (fun i => bodyOf (s.sendCtrl_.packets_ i)) ++
    s.sendCtrl_.enqueuedWrs_.map wrBody
  count : s.sent.length + s.qp.sendCqes = P.length + s.qp.recvCqes
  sq : s.qp.sq = s.sendCtrl_.postedPkts_.drop s.qp.sendCqes
  sendCqes : s.qp.sendCqes ≤ s.sendCtrl_.postedPkts_.length
  posted : s.sendCtrl_.postedReqs_.length = s.sendCtrl_.postedPkts_.length
  packets : (s.sendCtrl_.freePkts_ ++ s.sendCtrl_.postedPkts_).Nodup
  allPackets : (s.sendCtrl_.freePkts_ ++ s.sendCtrl_.postedPkts_).length = MAX_CONTROL_MSGS
  rq : s.qp.rq = s.recvCtrl_.postedPkts_.drop s.qp.recvCqes
  recvCqes : s.qp.recvCqes ≤ s.recvCtrl_.postedPkts_.length
  buffers : s.recvCtrl_.postedPkts_.Nodup
  allBuffers : s.recvCtrl_.postedPkts_.length = MAX_CONTROL_MSGS
  called : s.called = withCb hasCb P
  matched : Rendezvous fill (plain hasCb P) R (s.recvCtrl_.unexpWrs_.map bodyOf)
    s.recvCtrl_.enqueuedWrs_ s.received
  requests : ∀ r, s.reqs r =
    if r ∈ s.sent ++ s.received.map Prod.fst then ⟨0, .COMPLETE⟩ else {}

/-- A message waits only when no packet is free. -/
def Starved (s : CtrlLink) : Prop := s.sendCtrl_.enqueuedWrs_ ≠ [] → s.sendCtrl_.freePkts_ = []

theorem carries_setup : Carries hasCb [] [] [] setup where
  reqs := rfl
  bodies := rfl
  count := rfl
  sq := rfl
  sendCqes := le_rfl
  posted := rfl
  packets := by simpa [setup] using List.nodup_range
  allPackets := by simp [setup]
  rq := rfl
  recvCqes := Nat.zero_le _
  buffers := List.nodup_range
  allBuffers := by simp [setup]
  called := rfl
  matched := Rendezvous.nil fill
  requests r := by simp [setup]

/-! ### Requests -/

/-- The requests of all calls are different objects. -/
def Distinct (M : List ControlPendingSendWr) (R : List ControlPostedRecvWr) : Prop :=
  (M.map ControlPendingSendWr.req ++ R.map ControlPostedRecvWr.req).Nodup

theorem fill_reqs (L : List Body) (R : List ControlPostedRecvWr) :
    ((List.zipWith fill L R).map Prod.fst) <+: R.map ControlPostedRecvWr.req := by
  induction L generalizing R with
  | nil => simp
  | cons b L ih =>
    cases R with
    | nil => simp
    | cons r R => simpa [fill] using ih R

theorem Carries.completed_sublist (h : Carries hasCb M R P s) :
    (s.sent ++ s.received.map Prod.fst).Sublist
      (M.map ControlPendingSendWr.req ++ R.map ControlPostedRecvWr.req) := by
  apply List.Sublist.append
  · rw [h.reqs, List.append_assoc]
    exact List.sublist_append_left _ _
  · rw [h.matched.out]
    exact (fill_reqs _ _).sublist

variable {reqs : Req → CtranIbRequest} {b : Body} {op : Op}

theorem requests_update {done done' : List Req} {req : Req}
    (h : ∀ r, reqs r = if r ∈ done then ⟨0, .COMPLETE⟩ else {})
    (hdone : ∀ r, r ∈ done' ↔ r = req ∨ r ∈ done) :
    ∀ r, Function.update reqs req ⟨0, .COMPLETE⟩ r =
      if r ∈ done' then ⟨0, .COMPLETE⟩ else {} := by
  intro r
  by_cases hr : r = req
  · subst hr
    simp [hdone]
  · simp [hr, h, hdone]

/-! ### The sending side -/

section

variable (h : Carries hasCb M R P s)
include h

theorem Carries.enqueue (wr : ControlPendingSendWr) :
    Carries hasCb (M ++ [wr]) R P { s with sendCtrl_ := { s.sendCtrl_ with
      enqueuedWrs_ := s.sendCtrl_.enqueuedWrs_ ++ [wr] } } :=
  { h with
    reqs := by simp [h.reqs]
    bodies := by simp [h.bodies] }

theorem Carries.post (wr : ControlPendingSendWr)
    (wrs : List ControlPendingSendWr) (idx : ℕ) (free : List ℕ)
    (henq : s.sendCtrl_.enqueuedWrs_ = wr :: wrs) (hfree : s.sendCtrl_.freePkts_ = idx :: free)
    (hsize : wr.payload.length ≤ MAX_PAYLOAD_SIZE) :
    ∃ s', s.postEnqueuedSendWr = .ok s' ∧ Carries hasCb M R P s' ∧
      s'.sendCtrl_.enqueuedWrs_ = wrs ∧ s'.sendCtrl_.freePkts_ = free := by
  have hpackets := h.packets
  rw [hfree, List.cons_append, List.nodup_cons, List.mem_append, not_or] at hpackets
  rcases hpackets with ⟨⟨_, hidx⟩, hrest⟩
  have hsq : idx ∉ s.qp.sq := by
    rw [h.sq]
    exact fun hmem => hidx (List.mem_of_mem_drop hmem)
  have hkeep : s.qp.sq.map (fun i => bodyOf (Function.update s.sendCtrl_.packets_ idx
      ⟨wr.type, wr.payload, hsize⟩ i)) = s.qp.sq.map fun i => bodyOf (s.sendCtrl_.packets_ i) := by
    apply List.map_congr_left
    intro i hi
    rw [Function.update_of_ne]
    rintro rfl
    exact hsq hi
  simp only [postEnqueuedSendWr, henq, hfree, postPacket, CtrlPacket.copyFrom, hsize, dite_true]
  refine ⟨_, rfl, ?_, rfl, rfl⟩
  exact
    { h with
      reqs := by simp [h.reqs, henq]
      bodies := by
        simp only [h.bodies, henq, List.map_append, List.map_cons, List.map_nil,
          Function.update_self, hkeep]
        simp [bodyOf, wrBody]
      sq := by
        simp only
        rw [List.drop_append_of_le_length h.sendCqes, h.sq]
      sendCqes := by
        simp only [List.length_append]
        exact Nat.le_add_right_of_le h.sendCqes
      posted := by simp [h.posted]
      packets := by
        simp only
        rw [← List.append_assoc, List.nodup_append]
        refine ⟨hrest, List.nodup_singleton _, ?_⟩
        rintro x hx y hy rfl
        rw [List.mem_singleton] at hy
        subst hy
        rcases List.mem_append.mp hx with hx | hx
        · exact absurd hx (by simp_all)
        · exact hidx hx
      allPackets := by
        have hall := h.allPackets
        rw [hfree] at hall
        simp only [List.cons_append, List.length_cons, List.length_append, List.length_nil] at hall ⊢
        omega }

theorem Carries.isend (hst : s.Starved) {wr : ControlPendingSendWr}
    (hsize : wr.payload.length ≤ MAX_PAYLOAD_SIZE) :
    ∃ s', s.isendCtrlMsgImpl wr = .ok s' ∧ Carries hasCb (M ++ [wr]) R P s' ∧ s'.Starved := by
  have henq := h.enqueue wr
  cases hfree : s.sendCtrl_.freePkts_ with
  | nil =>
    simp only [isendCtrlMsgImpl, hfree] at henq ⊢
    exact ⟨_, rfl, henq, fun _ => rfl⟩
  | cons idx free =>
    have hnone : s.sendCtrl_.enqueuedWrs_ = [] := by
      by_contra hne
      rw [hst hne] at hfree
      cases hfree
    have hfront : s.sendCtrl_.enqueuedWrs_ ++ [wr] = [wr] := by rw [hnone, List.nil_append]
    rcases henq.post wr [] idx free hfront hfree hsize with ⟨s', hs', hc, hwrs, _⟩
    refine ⟨s', ?_, hc, fun hne => absurd hwrs hne⟩
    rw [← hs']
    simp only [isendCtrlMsgImpl, postEnqueuedSendWr, hfree, hnone, List.nil_append]

theorem Carries.enqueued_fits
    (hfits : ∀ wr ∈ M, wr.payload.length ≤ MAX_PAYLOAD_SIZE) :
    ∀ wr ∈ s.sendCtrl_.enqueuedWrs_, wr.payload.length ≤ MAX_PAYLOAD_SIZE := by
  intro wr hwr
  have hmem : wrBody wr ∈ M.map wrBody := by
    rw [h.bodies]
    exact List.mem_append_right _ (List.mem_map_of_mem hwr)
  rcases List.mem_map.mp hmem with ⟨m, hm, hbody⟩
  have hpay : m.payload = wr.payload := congrArg Prod.snd hbody
  rw [← hpay]
  exact hfits m hm

/-- A send completion completes the oldest posted request and frees its packet. -/
theorem Carries.release (hdist : Distinct M R) {n idx : ℕ}
    {req : Req} {reqs : List Req} {pkts : List ℕ} (hn : s.qp.sendCqes = n + 1)
    (hreqs : s.sendCtrl_.postedReqs_ = req :: reqs)
    (hpkts : s.sendCtrl_.postedPkts_ = idx :: pkts) :
    s.reqs req = {} ∧ Carries hasCb M R P { s with
      qp := { s.qp with sendCqes := n }
      sendCtrl_ := { s.sendCtrl_ with
        postedReqs_ := reqs
        postedPkts_ := pkts
        freePkts_ := s.sendCtrl_.freePkts_ ++ [idx] }
      sent := s.sent ++ [req]
      reqs := Function.update s.reqs req ⟨0, .COMPLETE⟩ } := by
  have hM : M.map ControlPendingSendWr.req = s.sent ++ [req] ++ reqs ++
      s.sendCtrl_.enqueuedWrs_.map ControlPendingSendWr.req := by
    rw [h.reqs, hreqs]
    simp
  have hfresh : req ∉ s.sent ++ s.received.map Prod.fst := by
    have hnodup := hdist
    rw [Distinct, hM] at hnodup
    have hsub : (s.sent ++ [req] ++ s.received.map Prod.fst).Nodup := by
      refine List.Nodup.sublist ?_ hnodup
      apply List.Sublist.append
      · rw [List.append_assoc (s.sent ++ [req])]
        exact List.sublist_append_left _ _
      · rw [h.matched.out]
        exact (fill_reqs _ _).sublist
    rw [List.append_assoc, List.singleton_append, List.nodup_middle, List.nodup_cons] at hsub
    exact hsub.1
  constructor
  · rw [h.requests, if_neg hfresh]
  · exact
      { h with
        reqs := hM
        count := by
          have hcount := h.count
          simp only [List.length_append, List.length_singleton]
          omega
        sq := by
          have hsq := h.sq
          rw [hn, hpkts] at hsq
          exact hsq
        sendCqes := by
          have hle := h.sendCqes
          rw [hn, hpkts] at hle
          exact Nat.le_of_succ_le_succ hle
        posted := by
          have hlen := h.posted
          rw [hreqs, hpkts] at hlen
          exact Nat.succ.inj hlen
        packets := by
          have hp := h.packets
          rw [hpkts] at hp
          simpa using hp
        allPackets := by
          have hall := h.allPackets
          rw [hpkts] at hall
          simpa using hall
        requests := by
          apply requests_update h.requests
          intro r
          simp only [List.mem_append, List.mem_singleton]
          tauto }

theorem Carries.pollSend (hst : s.Starved) (hdist : Distinct M R)
    (hfits : ∀ wr ∈ M, wr.payload.length ≤ MAX_PAYLOAD_SIZE) (hcqe : s.qp.sendCqes ≠ 0) :
    ∃ s', s.pollSend = .ok s' ∧ Carries hasCb M R P s' ∧ s'.Starved := by
  rcases Nat.exists_eq_succ_of_ne_zero hcqe with ⟨n, hn⟩
  have hle := h.sendCqes
  have hposted := h.posted
  cases hpkts : s.sendCtrl_.postedPkts_ with
  | nil =>
    rw [hn, hpkts] at hle
    cases hle
  | cons idx pkts =>
    cases hreqs : s.sendCtrl_.postedReqs_ with
    | nil =>
      rw [hpkts, hreqs] at hposted
      cases hposted
    | cons req reqs =>
      rcases h.release hdist hn hreqs hpkts with ⟨hfresh, hrel⟩
      cases henq : s.sendCtrl_.enqueuedWrs_ with
      | nil =>
        refine ⟨_, ?_, hrel, fun hne => absurd henq hne⟩
        simp [CtrlLink.pollSend, hn, processSendCqe, hreqs, hpkts, complete, hfresh, henq]
      | cons wr wrs =>
        have hfree : s.sendCtrl_.freePkts_ = [] := hst (by simp [henq])
        have hsize := h.enqueued_fits hfits wr (by simp [henq])
        rcases hrel.post wr wrs idx [] henq (by simp [hfree]) hsize with ⟨s', hs', hc, _, hnofree⟩
        refine ⟨s', ?_, hc, fun _ => hnofree⟩
        rw [← hs']
        simp [CtrlLink.pollSend, hn, processSendCqe, hreqs, hpkts, complete, hfresh, henq]

/-! ### The control QP -/

theorem Carries.deliver (hsq : s.qp.sq ≠ []) (hrq : s.qp.rq ≠ []) :
    ∃ s', s.deliver = .ok s' ∧ Carries hasCb M R P s' ∧ s'.sendCtrl_ = s.sendCtrl_ := by
  rcases List.exists_cons_of_ne_nil hsq with ⟨src, sq, hsrc⟩
  rcases List.exists_cons_of_ne_nil hrq with ⟨dst, rq, hdst⟩
  have hs := h.sq
  have hr := h.rq
  rw [hsrc] at hs
  rw [hdst] at hr
  have hslt : s.qp.sendCqes < s.sendCtrl_.postedPkts_.length := by
    by_contra hge
    rw [List.drop_eq_nil_of_le (Nat.le_of_not_lt hge)] at hs
    cases hs
  have hrlt : s.qp.recvCqes < s.recvCtrl_.postedPkts_.length := by
    by_contra hge
    rw [List.drop_eq_nil_of_le (Nat.le_of_not_lt hge)] at hr
    cases hr
  rw [List.drop_eq_getElem_cons hslt, List.cons.injEq] at hs
  rw [List.drop_eq_getElem_cons hrlt, List.cons.injEq] at hr
  have hnew : dst ∉ s.recvCtrl_.postedPkts_.take s.qp.recvCqes := by
    have hsplit := h.buffers
    rw [← List.take_append_drop s.qp.recvCqes s.recvCtrl_.postedPkts_,
      List.drop_eq_getElem_cons hrlt, List.nodup_middle, ← hr.1, List.nodup_cons,
      List.mem_append, not_or] at hsplit
    exact hsplit.1.1
  have hkeep : (s.recvCtrl_.postedPkts_.take s.qp.recvCqes).map (fun i =>
      bodyOf (Function.update s.recvCtrl_.packets_ dst (s.sendCtrl_.packets_ src) i)) =
      (s.recvCtrl_.postedPkts_.take s.qp.recvCqes).map fun i =>
        bodyOf (s.recvCtrl_.packets_ i) := by
    apply List.map_congr_left
    intro i hi
    rw [Function.update_of_ne]
    rintro rfl
    exact hnew hi
  simp only [CtrlLink.deliver, hsrc, hdst]
  refine ⟨_, rfl, ?_, rfl⟩
  exact
    { h with
      bodies := by
        simp only [h.bodies, hsrc]
        rw [List.take_succ_eq_append_getElem hrlt, ← hr.1]
        simp only [List.map_append, hkeep]
        simp
      count := by
        have hcount := h.count
        simp only
        omega
      sq := hs.2
      sendCqes := hslt
      rq := hr.2
      recvCqes := hrlt }

end

/-! ### The receiving side -/

variable {wr : ControlPostedRecvWr}

theorem SizesMatch.size_eq (h : SizesMatch hasCb M R) {i : ℕ}
    (hb : (plain hasCb (M.map wrBody))[i]? = some b)
    (hwr : R[i]? = some wr) : b.2.length = wr.size := by
  have hpair : ((plain hasCb (M.map wrBody)).zip R)[i]? = some (b, wr) :=
    List.getElem?_zip_eq_some.mpr ⟨hb, hwr⟩
  exact h (b, wr) (List.mem_of_getElem? hpair)

theorem Carries.plain_prefix (h : Carries hasCb M R P s) :
    plain hasCb P <+: plain hasCb (M.map wrBody) := by
  apply List.IsPrefix.filter
  rw [h.bodies, List.append_assoc, List.append_assoc]
  exact List.prefix_append _ _

theorem Carries.fresh (h : Carries hasCb M R P s) {R' : List ControlPostedRecvWr}
    (hdist : Distinct M R') {L unl : List Body} {unr : List ControlPostedRecvWr}
    (hm : Rendezvous fill L R' unl unr (s.received ++ [fill b wr])) : s.reqs wr.req = {} := by
  have hsub : (s.sent ++ (s.received ++ [fill b wr]).map Prod.fst).Nodup := by
    refine List.Nodup.sublist ?_ hdist
    apply List.Sublist.append
    · rw [h.reqs, List.append_assoc]
      exact List.sublist_append_left _ _
    · rw [hm.out]
      exact (fill_reqs _ _).sublist
  rw [List.map_append, ← List.append_assoc] at hsub
  have hnew : wr.req ∉ s.sent ++ s.received.map Prod.fst := by
    intro hmem
    exact (List.nodup_append.mp hsub).2.2 _ hmem wr.req (by simp [fill]) rfl
  rw [h.requests, if_neg hnew]

theorem finishRecv_ok (s : CtrlLink) {p : CtrlPacket} (hsize : p.size = wr.size)
    (hfresh : s.reqs wr.req = {}) :
    s.finishRecv p wr = .ok { s with
      received := s.received ++ [fill (bodyOf p) wr]
      reqs := Function.update s.reqs wr.req ⟨0, .COMPLETE⟩ } := by
  simp [finishRecv, CtrlPacket.copyTo, hsize, complete, hfresh, fill, bodyOf]

section

variable (h : Carries hasCb M R P s)
include h

theorem Carries.requests_received (b : Body) (wr : ControlPostedRecvWr) :
    ∀ r, Function.update s.reqs wr.req ⟨0, .COMPLETE⟩ r =
      if r ∈ s.sent ++ (s.received ++ [fill b wr]).map Prod.fst then ⟨0, .COMPLETE⟩ else {} := by
  apply requests_update h.requests
  intro r
  simp only [List.map_append, List.mem_append, List.map_cons, List.map_nil, List.mem_singleton,
    fill]
  tauto

theorem Carries.irecv
    (hdist : Distinct M (R ++ [wr])) (hsizes : SizesMatch hasCb M (R ++ [wr])) :
    ∃ s', s.irecvCtrlMsgImpl wr = .ok s' ∧ Carries hasCb M (R ++ [wr]) P s' ∧
      s'.sendCtrl_ = s.sendCtrl_ := by
  have hm := h.matched.swap
  cases hunexp : s.recvCtrl_.unexpWrs_ with
  | nil =>
    rw [hunexp] at hm
    simp only [irecvCtrlMsgImpl, hunexp]
    refine ⟨_, rfl, ?_, rfl⟩
    exact { h with matched := (hm.push_wait wr).swap }
  | cons p unexp =>
    rw [hunexp, List.map_cons] at hm
    have hm' := (hm.push_match wr).swap
    have hfresh := h.fresh hdist hm'
    have hplain : (plain hasCb (M.map wrBody))[R.length]? = some (bodyOf p) := by
      rcases List.getElem?_eq_some_iff.mp hm.waiting_right with ⟨hlt, hp⟩
      rw [← hp]
      exact List.prefix_iff_getElem?.mp h.plain_prefix _ hlt
    have hsize : p.size = wr.size := hsizes.size_eq hplain (by simp)
    simp only [irecvCtrlMsgImpl, hunexp]
    rw [finishRecv_ok _ hsize (by exact hfresh)]
    refine ⟨_, rfl, ?_, rfl⟩
    exact { h with matched := hm', requests := h.requests_received (bodyOf p) wr }

/-- The oldest arrived message was processed and its packet posted again. -/
theorem Carries.processed {n idx : ℕ} {pkts : List ℕ}
    (hn : s.qp.recvCqes = n + 1) (hpkts : s.recvCtrl_.postedPkts_ = idx :: pkts)
    {unexp : List CtrlPacket} {enq : List ControlPostedRecvWr}
    {received : List (Req × List UInt8)} {called : List Body}
    (hcalled : called = withCb hasCb (P ++ [bodyOf (s.recvCtrl_.packets_ idx)]))
    (hmatched : Rendezvous fill (plain hasCb (P ++ [bodyOf (s.recvCtrl_.packets_ idx)])) R
      (unexp.map bodyOf) enq received) (hrequests : ∀ r, reqs r =
      if r ∈ s.sent ++ received.map Prod.fst then ⟨0, .COMPLETE⟩ else {}) :
    Carries hasCb M R (P ++ [bodyOf (s.recvCtrl_.packets_ idx)]) { s with
      recvCtrl_ := ⟨s.recvCtrl_.packets_, pkts ++ [idx], unexp, enq⟩
      qp := ⟨s.qp.sq, s.qp.rq ++ [idx], s.qp.sendCqes, n⟩
      reqs := reqs
      received := received
      called := called } := by
  have hle := h.recvCqes
  rw [hn, hpkts] at hle
  have hlen : n ≤ pkts.length := Nat.le_of_succ_le_succ hle
  exact
    { h with
      bodies := by
        have hb := h.bodies
        rw [hn, hpkts, List.take_succ_cons] at hb
        rw [hb, List.take_append_of_le_length hlen]
        simp
      count := by
        have hcount := h.count
        simp only [List.length_append, List.length_singleton]
        omega
      rq := by
        have hr := h.rq
        rw [hn, hpkts] at hr
        simp only
        rw [List.drop_append_of_le_length hlen, hr]
        rfl
      recvCqes := by
        simp only [List.length_append]
        exact Nat.le_add_right_of_le hlen
      buffers := by
        have hb := h.buffers
        rw [hpkts] at hb
        exact (List.perm_append_singleton idx pkts).nodup_iff.mpr hb
      allBuffers := by
        have hall := h.allBuffers
        rw [hpkts] at hall
        simpa using hall
      called := hcalled
      matched := hmatched
      requests := hrequests }

theorem Carries.pollRecv (hdist : Distinct M R)
    (hsizes : SizesMatch hasCb M R) (hcqe : s.qp.recvCqes ≠ 0) :
    ∃ s' P', s.pollRecv hasCb .commSuccess = .ok s' ∧ Carries hasCb M R P' s' ∧
      s'.sendCtrl_ = s.sendCtrl_ := by
  rcases Nat.exists_eq_succ_of_ne_zero hcqe with ⟨n, hn⟩
  have hle := h.recvCqes
  have hbodies := h.bodies
  cases hpkts : s.recvCtrl_.postedPkts_ with
  | nil =>
    rw [hn, hpkts] at hle
    cases hle
  | cons idx pkts =>
    rw [hn, hpkts, List.take_succ_cons] at hbodies
    by_cases hcb : hasCb (s.recvCtrl_.packets_ idx).type
    · have hplain : plain hasCb (P ++ [bodyOf (s.recvCtrl_.packets_ idx)]) = plain hasCb P := by
        simp [plain, bodyOf, hcb]
      have hmatched := h.matched
      rw [← hplain] at hmatched
      simp only [CtrlLink.pollRecv, hn, processRecvCqe, hpkts, dispatchPacket, hcb, if_true]
      refine ⟨_, _, rfl, h.processed hn hpkts ?_ hmatched h.requests, rfl⟩
      simp [h.called, withCb, bodyOf, hcb]
    · have hplain : plain hasCb (P ++ [bodyOf (s.recvCtrl_.packets_ idx)]) =
          plain hasCb P ++ [bodyOf (s.recvCtrl_.packets_ idx)] := by
        simp [plain, bodyOf, hcb]
      have hcalled : s.called = withCb hasCb (P ++ [bodyOf (s.recvCtrl_.packets_ idx)]) := by
        simp [h.called, withCb, bodyOf, hcb]
      have hmatched := h.matched
      cases henq : s.recvCtrl_.enqueuedWrs_ with
      | nil =>
        rw [henq] at hmatched
        have hm := hmatched.push_wait (bodyOf (s.recvCtrl_.packets_ idx))
        rw [← hplain, ← List.map_singleton, ← List.map_append] at hm
        simp only [CtrlLink.pollRecv, hn, processRecvCqe, hpkts, dispatchPacket, hcb, henq]
        exact ⟨_, _, rfl, h.processed hn hpkts hcalled hm h.requests, rfl⟩
      | cons wr wrs =>
        rw [henq] at hmatched
        have hm := hmatched.push_match (bodyOf (s.recvCtrl_.packets_ idx))
        rw [← hplain] at hm
        have hfresh := h.fresh hdist hm
        have hbody : (plain hasCb (M.map wrBody))[(plain hasCb P).length]? =
            some (bodyOf (s.recvCtrl_.packets_ idx)) := by
          rw [hbodies]
          simp [plain, bodyOf, hcb]
        have hsize : (s.recvCtrl_.packets_ idx).size = wr.size :=
          hsizes.size_eq hbody hmatched.waiting_right
        simp only [CtrlLink.pollRecv, hn, processRecvCqe, hpkts, dispatchPacket, hcb, henq]
        simp only [Bool.false_eq_true, if_false]
        rw [finishRecv_ok _ hsize (by exact hfresh)]
        exact ⟨_, _, rfl, h.processed hn hpkts hcalled hm (h.requests_received _ wr), rfl⟩

end

/-! ### Runs -/

/-- The contract of the calls and of the QP: payloads fit a packet, every call has its own
request, completions exist, and callbacks succeed. -/
def Permitted (past : List Op) (s : CtrlLink) : Op → Prop
  | .isendCtrlMsg wr => wr.payload.length ≤ MAX_PAYLOAD_SIZE ∧
      Distinct (sends past ++ [wr]) (recvs past)
  | .irecvCtrlMsg wr => Distinct (sends past) (recvs past ++ [wr])
  | .deliver => s.qp.sq ≠ [] ∧ s.qp.rq ≠ []
  | .pollSend => s.qp.sendCqes ≠ 0
  | .pollRecv cbRes => s.qp.recvCqes ≠ 0 ∧ cbRes = .commSuccess

/-- After each operation the matched messages and receives have equal sizes. -/
def Matching (hasCb : ℤ → Bool) (past : List Op) (s : CtrlLink) (op : Op) : Prop :=
  Permitted past s op ∧ SizesMatch hasCb (sends (past ++ [op])) (recvs (past ++ [op]))

/-- The contract with receives that are large enough. -/
def WellFormed (hasCb : ℤ → Bool) (past : List Op) (s : CtrlLink) (op : Op) : Prop :=
  Permitted past s op ∧ RoomFor hasCb (sends (past ++ [op])) (recvs (past ++ [op]))

instance (M : List ControlPendingSendWr) (R : List ControlPostedRecvWr) :
    Decidable (Distinct M R) := inferInstanceAs (Decidable (List.Nodup _))

instance (past : List Op) (s : CtrlLink) : ∀ op, Decidable (Permitted past s op)
  | .isendCtrlMsg _ => inferInstanceAs (Decidable (_ ∧ _))
  | .irecvCtrlMsg _ => inferInstanceAs (Decidable (Distinct _ _))
  | .deliver => inferInstanceAs (Decidable (_ ∧ _))
  | .pollSend => inferInstanceAs (Decidable (_ ≠ _))
  | .pollRecv _ => inferInstanceAs (Decidable (_ ∧ _))

instance (past : List Op) (s : CtrlLink) (op : Op) : Decidable (Matching hasCb past s op) :=
  @instDecidableAnd _ _ _ (inferInstanceAs (Decidable (∀ p ∈ List.zip _ _, _)))

instance (past : List Op) (s : CtrlLink) (op : Op) : Decidable (WellFormed hasCb past s op) :=
  @instDecidableAnd _ _ _ (inferInstanceAs (Decidable (∀ p ∈ List.zip _ _, _)))

/-- Everything the QP carried has been polled. -/
def Quiet (s : CtrlLink) : Prop := s.qp.sq = [] ∧ s.qp.sendCqes = 0 ∧ s.qp.recvCqes = 0

/-- Exactly once and in order, computed from the calls alone: `received` pairs the `k`-th
message without a callback with the `k`-th receive. -/
structure Delivered (hasCb : ℤ → Bool) (ops : List Op) (s : CtrlLink) : Prop where
  received : s.received <+:
    List.zipWith fill (plain hasCb ((sends ops).map wrBody)) (recvs ops)
  called : s.called <+: withCb hasCb ((sends ops).map wrBody)
  sent : s.sent <+: (sends ops).map ControlPendingSendWr.req
  once : (s.sent ++ s.received.map Prod.fst).Nodup
  completed : ∀ r, (s.reqs r).isComplete ↔ r ∈ s.sent ++ s.received.map Prod.fst
  starved : s.sendCtrl_.enqueuedWrs_ ≠ [] → s.sendCtrl_.freePkts_ = []
  exclusive : ¬ (s.recvCtrl_.unexpWrs_ ≠ [] ∧ s.recvCtrl_.enqueuedWrs_ ≠ [])
  movable : s.qp.rq ≠ [] ∨ s.qp.recvCqes ≠ 0
  settled : s.Quiet →
    s.received = List.zipWith fill (plain hasCb ((sends ops).map wrBody)) (recvs ops) ∧
    s.called = withCb hasCb ((sends ops).map wrBody) ∧
    s.sent = (sends ops).map ControlPendingSendWr.req

/-- The invariant of a run. -/
structure Exact (hasCb : ℤ → Bool) (past : List Op) (s : CtrlLink) : Prop where
  carries : ∃ P, Carries hasCb (sends past) (recvs past) P s
  starved : s.Starved
  distinct : Distinct (sends past) (recvs past)
  fits : ∀ wr ∈ sends past, wr.payload.length ≤ MAX_PAYLOAD_SIZE

theorem exact_setup : Exact hasCb [] setup where
  carries := ⟨[], carries_setup⟩
  starved := fun h => absurd rfl h
  distinct := List.nodup_nil
  fits := fun _ h => absurd h List.not_mem_nil

theorem sends_concat (past : List Op) (op : Op) :
    sends (past ++ [op]) = sends past ++ sends [op] := List.filterMap_append

theorem recvs_concat (past : List Op) (op : Op) :
    recvs (past ++ [op]) = recvs past ++ recvs [op] := List.filterMap_append

variable {past : List Op}

theorem Exact.moved (h : Exact hasCb past s) (hsend : sends [op] = []) (hrecv : recvs [op] = [])
    (hc : Carries hasCb (sends past) (recvs past) P s') (hst : s'.Starved) :
    Exact hasCb (past ++ [op]) s' := by
  have hsends := sends_concat past op
  have hrecvs := recvs_concat past op
  rw [hsend, List.append_nil] at hsends
  rw [hrecv, List.append_nil] at hrecvs
  refine ⟨⟨P, ?_⟩, hst, ?_, ?_⟩
  · rw [hsends, hrecvs]
    exact hc
  · rw [hsends, hrecvs]
    exact h.distinct
  · rw [hsends]
    exact h.fits

theorem Exact.step (h : Exact hasCb past s) (hop : Matching hasCb past s op) :
    ∃ s', CtrlLink.step hasCb s op = .ok s' ∧ Exact hasCb (past ++ [op]) s' := by
  rcases h.carries with ⟨P, hc⟩
  rcases hop with ⟨hperm, hsizes⟩
  rw [sends_concat, recvs_concat] at hsizes
  cases op with
  | isendCtrlMsg wr =>
    rcases hperm with ⟨hsize, hdist⟩
    rcases hc.isend h.starved hsize with ⟨s', hs', hc', hst'⟩
    have hsends : sends (past ++ [.isendCtrlMsg wr]) = sends past ++ [wr] := sends_concat _ _
    have hrecvs : recvs (past ++ [.isendCtrlMsg wr]) = recvs past :=
      (recvs_concat _ _).trans (List.append_nil _)
    refine ⟨s', hs', ⟨P, ?_⟩, hst', ?_, ?_⟩
    · rw [hsends, hrecvs]
      exact hc'
    · rw [hsends, hrecvs]
      exact hdist
    · intro w hw
      rw [hsends] at hw
      rcases List.mem_append.mp hw with hw | hw
      · exact h.fits w hw
      · rw [List.mem_singleton.mp hw]
        exact hsize
  | irecvCtrlMsg wr =>
    have hsends : sends (past ++ [.irecvCtrlMsg wr]) = sends past :=
      (sends_concat _ _).trans (List.append_nil _)
    have hrecvs : recvs (past ++ [.irecvCtrlMsg wr]) = recvs past ++ [wr] := recvs_concat _ _
    rw [show sends [.irecvCtrlMsg wr] = [] from rfl, List.append_nil] at hsizes
    rcases hc.irecv hperm hsizes with ⟨s', hs', hc', hkeep⟩
    refine ⟨s', hs', ⟨P, ?_⟩, ?_, ?_, ?_⟩
    · rw [hsends, hrecvs]
      exact hc'
    · rw [Starved, hkeep]
      exact h.starved
    · rw [hsends, hrecvs]
      exact hperm
    · rw [hsends]
      exact h.fits
  | deliver =>
    rcases hc.deliver hperm.1 hperm.2 with ⟨s', hs', hc', hkeep⟩
    refine ⟨s', hs', h.moved rfl rfl hc' ?_⟩
    rw [Starved, hkeep]
    exact h.starved
  | pollSend =>
    rcases hc.pollSend h.starved h.distinct h.fits hperm with ⟨s', hs', hc', hst'⟩
    exact ⟨s', hs', h.moved rfl rfl hc' hst'⟩
  | pollRecv cbRes =>
    rcases hperm with ⟨hcqe, rfl⟩
    rw [show sends [.pollRecv .commSuccess] = [] from rfl,
      show recvs [.pollRecv .commSuccess] = [] from rfl, List.append_nil, List.append_nil] at hsizes
    rcases hc.pollRecv h.distinct hsizes hcqe with ⟨s', P', hs', hc', hkeep⟩
    refine ⟨s', hs', h.moved rfl rfl hc' ?_⟩
    rw [Starved, hkeep]
    exact h.starved

theorem Exact.settled (h : Exact hasCb past s)
    (hc : Carries hasCb (sends past) (recvs past) P s) (hq : s.Quiet) :
    s.sent = (sends past).map ControlPendingSendWr.req ∧ (sends past).map wrBody = P := by
  rcases hq with ⟨hsq, hscqe, hrcqe⟩
  have hpkts := hc.sq
  rw [hsq, hscqe, List.drop_zero] at hpkts
  have hreqs := hc.posted
  rw [← hpkts, List.length_nil, List.length_eq_zero_iff] at hreqs
  have hall := hc.allPackets
  rw [← hpkts, List.append_nil] at hall
  have henq : s.sendCtrl_.enqueuedWrs_ = [] := by
    by_contra hne
    rw [h.starved hne] at hall
    cases hall
  constructor
  · rw [hc.reqs, hreqs, henq]
    simp
  · rw [hc.bodies, hrcqe, hsq, henq]
    simp

theorem Exact.delivered {ops : List Op} (h : Exact hasCb ops s) : Delivered hasCb ops s := by
  rcases h.carries with ⟨P, hc⟩
  rcases hc.plain_prefix with ⟨rest, hrest⟩
  refine
    { received := ?_
      called := ?_
      sent := ?_
      once := h.distinct.sublist hc.completed_sublist
      completed := ?_
      starved := h.starved
      exclusive := ?_
      movable := ?_
      settled := ?_ }
  · rw [← hrest]
    exact hc.matched.out_prefix rest
  · rw [hc.called, hc.bodies, List.append_assoc, List.append_assoc, withCb, withCb,
      List.filter_append]
    exact List.prefix_append _ _
  · rw [hc.reqs, List.append_assoc]
    exact List.prefix_append _ _
  · intro r
    rw [hc.requests]
    by_cases hr : r ∈ s.sent ++ s.received.map Prod.fst
    · simp [hr, CtranIbRequest.isComplete]
    · simp [hr, CtranIbRequest.isComplete]
  · rintro ⟨hunexp, henq⟩
    rcases hc.matched.exclusive with hnil | hnil
    · exact hunexp (List.map_eq_nil_iff.mp hnil)
    · exact henq hnil
  · by_cases hcqe : s.qp.recvCqes = 0
    · left
      rw [hc.rq, hcqe, List.drop_zero]
      intro hnil
      have hall := hc.allBuffers
      rw [hnil] at hall
      cases hall
    · exact Or.inr hcqe
  · intro hq
    rcases h.settled hc hq with ⟨hsent, hP⟩
    rw [hP, hc.called, ← hc.matched.out]
    exact ⟨rfl, rfl, hsent⟩

/-- Control messages are delivered exactly once and in order. -/
theorem delivered_of_matching (hasCb : ℤ → Bool) (ops : List Op)
    (hadm : Admissible (step hasCb) (Matching hasCb) [] setup ops) :
    ∃ s, run (step hasCb) setup ops = .ok s ∧ Delivered hasCb ops s := by
  rcases run_invariant (Exact hasCb) (fun _ _ _ h hop => h.step hop) ops exact_setup hadm
    with ⟨s, hs, hexact⟩
  exact ⟨s, hs, hexact.delivered⟩

/-- A callback message and a plain one, both on their way before the receive is posted. -/
theorem delivered_of_matching_callback :
    ∃ s, run (step fun type => type == 7) setup [.isendCtrlMsg ⟨7, [1, 2], 0⟩,
        .isendCtrlMsg ⟨3, [5], 1⟩, .deliver, .pollSend, .deliver, .pollRecv .commSuccess,
        .pollRecv .commSuccess, .irecvCtrlMsg ⟨1, 2⟩, .pollSend] = .ok s ∧
      Delivered (fun type => type == 7) [.isendCtrlMsg ⟨7, [1, 2], 0⟩,
        .isendCtrlMsg ⟨3, [5], 1⟩, .deliver, .pollSend, .deliver, .pollRecv .commSuccess,
        .pollRecv .commSuccess, .irecvCtrlMsg ⟨1, 2⟩, .pollSend] s :=
  delivered_of_matching _ _ (by decide)

/-- A receive with more room than its message needs aborts: `copyTo` asks for equal sizes. -/
theorem not_delivered_of_wellFormed :
    ¬ ∀ hasCb ops, Admissible (step hasCb) (WellFormed hasCb) [] setup ops →
      ∃ s, run (step hasCb) setup ops = .ok s ∧ Delivered hasCb ops s := by
  intro hall
  rcases hall (fun _ => false) [.isendCtrlMsg ⟨0, [1], 0⟩, .irecvCtrlMsg ⟨2, 1⟩, .deliver,
    .pollRecv .commSuccess] (by decide) with ⟨s, hrun, _⟩
  have habort : run (step fun _ => false) setup [.isendCtrlMsg ⟨0, [1], 0⟩,
      .irecvCtrlMsg ⟨2, 1⟩, .deliver, .pollRecv .commSuccess] = .error .abort := rfl
  rw [habort] at hrun
  cases hrun

end TorchComms.CtranIb.CtrlLink
