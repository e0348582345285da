import TorchComms.Ibverbx.Accounts

/-! # Notifications in SPRAY mode

The notification of a message is posted when the completion of its last data segment finds the
message at the front of the notification queue, and is not posted later otherwise. Where the
messages finish in the order of their posts, every message is notified once and in that order.
-/
namespace TorchComms.Ibverbx

open Foundation

/-- What the receiver sees of a notification, with the message it is for. -/
structure Notification where
  wr_id : ℕ
  opcode : IbvWrOpcode
  imm_data : ℕ
  remote_addr : ℕ
  rkey : ℕ
deriving DecidableEq

/-- The notification that a message asks for. -/
def IbvSendWr.notification (wr : IbvSendWr) : Notification :=
  ⟨wr.wr_id, .IBV_WR_RDMA_WRITE_WITH_IMM, wr.imm_data, wr.remote_addr, wr.rkey⟩

def SendWqe.notification (x : SendWqe) : Notification :=
  ⟨x.virtualWrId, x.wr.opcode, x.wr.imm_data, x.wr.remote_addr, x.wr.rkey⟩

namespace Endpoint

variable {e : Endpoint}

/-! ### Runs of writes -/

/-- The send posted by an operation. -/
def Op.posted : Op → Option IbvSendWr
  | .postSend wr => some wr
  | _ => none

def posts (past : List Op) : List IbvSendWr := past.filterMap Op.posted

/-- The messages that ask for a notification, in the order of their posts. -/
def messages (past : List Op) : List IbvSendWr :=
  (posts past).filter fun wr => wr.opcode = .IBV_WR_RDMA_WRITE_WITH_IMM

/-- Signaled writes, with and without immediate data, with distinct ids. -/
def Writes (past : List Op) (e : Endpoint) : Op → Prop
  | .postSend wr => wr.num_sge = 1 ∧
      (∃ sg ∈ wr.sg_list, 1 ≤ sg.length ∧ sg.length < 2 ^ 31) ∧
      (wr.opcode = .IBV_WR_RDMA_WRITE ∨ wr.opcode = .IBV_WR_RDMA_WRITE_WITH_IMM) ∧
      wr.signaled ∧ wr.wr_id ∉ (posts past).map IbvSendWr.wr_id
  | .sendCompletion qpIdx _ => (e.vqp.qp? qpIdx).isSome
  | .pollVirtualCq _ _ => True
  | .postRecv _ | .recvCompletion _ _ _ => False

instance (past : List Op) (e : Endpoint) (op : Op) : Decidable (Writes past e op) := by
  rcases op with _ | _ | _ | _ | _ <;> unfold Writes <;> infer_instance

/-- The messages whose data is posted and whose notification is not. -/
def notifyIds (e : Endpoint) : List ℕ :=
  e.vqp.pendingSendNotifyVirtualWrQue_.map fun w => w.wr.wr_id

/-- When the next completion of the data QP `i` is that of the last segment of a message that
asks for a notification, the message is the oldest that has not been notified. -/
def InTurn (e : Endpoint) (i : ℕ) : Prop :=
  ∀ q ∈ e.vqp.qp? (some i), ∀ x ∈ q.sq.outstanding.head?,
    x.virtualWrId ∈ e.notifyIds → e.vqp.sendLeft x.virtualWrId = 2 →
      e.notifyIds.head? = some x.virtualWrId

instance (e : Endpoint) (i : ℕ) : Decidable (InTurn e i) := by
  unfold InTurn
  infer_instance

/-- Messages finish in the order of their posts, and the parts of each are an `int`. -/
def WritesInTurn (past : List Op) (e : Endpoint) (op : Op) : Prop :=
  Writes past e op ∧
    match op with
    | .postSend wr => wr.opcode = .IBV_WR_RDMA_WRITE_WITH_IMM →
        ∀ sg ∈ wr.sg_list, IbvVirtualQp.segments e.vqp.maxMsgSize_ sg.length < INT_MAX
    | .sendCompletion (some i) _ => InTurn e i
    | _ => True

instance (past : List Op) (e : Endpoint) (op : Op) : Decidable (WritesInTurn past e op) := by
  rcases op with _ | _ | ⟨_ | _, _⟩ | _ | _ <;> unfold WritesInTurn <;> infer_instance

/-- No message is notified twice, out of order or before its data has completed; without work in
flight, every message is notified and nothing waits. -/
structure Notified (past : List Op) (e : Endpoint) : Prop where
  inOrder : e.vqp.notifyQp_.sq.posted.map SendWqe.notification <+:
    (messages past).map IbvSendWr.notification
  afterData : ∀ x ∈ e.vqp.notifyQp_.sq.posted,
    (∀ w ∈ e.vqp.pendingSendVirtualWrQue_, w.wr.wr_id ≠ x.virtualWrId) ∧
      ∀ q ∈ e.vqp.physicalQps_, ∀ y ∈ q.sq.outstanding, y.virtualWrId ≠ x.virtualWrId
  settled : (∀ q ∈ e.vqp.qps, q.sq.outstanding = []) →
    e.vqp.pendingSendVirtualWrQue_ = [] ∧ e.vqp.pendingSendNotifyVirtualWrQue_ = [] ∧
      (∀ w ∈ (e.cqs e.sendCq).pendingSendVirtualWcQue_.items, w.remainingMsgCnt = 0) ∧
      e.vqp.notifyQp_.sq.posted.map SendWqe.notification =
        (messages past).map IbvSendWr.notification

/-! ### The invariant -/

structure Ordered (past : List Op) (e : Endpoint) : Prop where
  accounts : Accounts e
  stopped : e.vqp.Stopped
  room : e.vqp.maxMsgCntPerQp_ ≠ 0 ∧ INT_MIN ≤ e.vqp.maxMsgCntPerQp_ ∧
    e.vqp.maxMsgCntPerQp_ ≤ INT_MAX
  size : e.vqp.maxMsgSize_ ≤ INT_MAX
  noRecv : (e.cqs e.sendCq).pendingRecvVirtualWcQue_.items = []
  known : ∀ id ∈ wrIds (e.cqs e.sendCq).pendingSendVirtualWcQue_,
    id ∈ (posts past).map IbvSendWr.wr_id
  distinct : ((posts past).map IbvSendWr.wr_id).Nodup
  order : e.vqp.notifyQp_.sq.posted.map SendWqe.notification ++
    e.vqp.unnotified.map IbvSendWr.notification = (messages past).map IbvSendWr.notification
  unfinished : ∀ wr ∈ e.vqp.unnotified, 2 ≤ e.vqp.sendLeft wr.wr_id
  finished : ∀ x ∈ e.vqp.notifyQp_.sq.posted, e.vqp.sendLeft x.virtualWrId =
    statusCount x.virtualWrId e.vqp.notifyQp_.physicalSendWrStatus_

variable {past : List Op}

theorem Ordered.ids (h : Ordered past e) :
    e.vqp.notifyQp_.sq.posted.map SendWqe.virtualWrId ++ e.vqp.unnotified.map IbvSendWr.wr_id =
      (messages past).map IbvSendWr.wr_id := by
  have hids := congrArg (List.map Notification.wr_id) h.order
  rw [List.map_append, List.map_map, List.map_map, List.map_map] at hids
  exact hids

theorem messages_sublist (past : List Op) :
    ((messages past).map IbvSendWr.wr_id).Sublist ((posts past).map IbvSendWr.wr_id) :=
  List.filter_sublist.map _

theorem Ordered.ids_nodup (h : Ordered past e) :
    (e.vqp.notifyQp_.sq.posted.map SendWqe.virtualWrId ++
      e.vqp.unnotified.map IbvSendWr.wr_id).Nodup := by
  rw [h.ids]
  exact h.distinct.sublist (messages_sublist past)

variable {wr : IbvSendWr} {x : SendWqe}

theorem Ordered.posted_mem (h : Ordered past e)
    (hx : x ∈ e.vqp.notifyQp_.sq.posted) : x.virtualWrId ∈ (posts past).map IbvSendWr.wr_id := by
  apply (messages_sublist past).subset
  rw [← h.ids]
  exact List.mem_append_left _ (List.mem_map_of_mem hx)

theorem Ordered.apart (h : Ordered past e)
    (hx : x ∈ e.vqp.notifyQp_.sq.posted) (hwr : wr ∈ e.vqp.unnotified) :
    x.virtualWrId ≠ wr.wr_id := by
  intro heq
  have hdisjoint := (List.nodup_append'.mp h.ids_nodup).2.2
  exact hdisjoint (List.mem_map_of_mem hx) (heq ▸ List.mem_map_of_mem hwr)

/-! ### Posting -/

theorem posts_concat (past : List Op) (op : Op) :
    posts (past ++ [op]) = posts past ++ op.posted.toList := by
  rw [posts, List.filterMap_append, List.filterMap_cons, List.filterMap_nil, posts]
  cases op.posted <;> rfl

theorem segments_le {length : ℕ} {maxMsgSize : ℤ} (hmax : 1 ≤ maxMsgSize) (hlen : 1 ≤ length) :
    IbvVirtualQp.segments maxMsgSize length ≤ length := by
  apply Nat.div_le_of_le_mul
  have hm : 1 ≤ maxMsgSize.toNat := by omega
  have hmul : 1 * length ≤ maxMsgSize.toNat * length := Nat.mul_le_mul_right _ hm
  have hpred : (maxMsgSize.toNat - 1) * 1 ≤ (maxMsgSize.toNat - 1) * length :=
    Nat.mul_le_mul_left _ hlen
  have hsplit : maxMsgSize.toNat * length = (maxMsgSize.toNat - 1) * length + length := by
    rw [← Nat.succ_mul]
    congr 1
    omega
  omega

theorem Ordered.sendable (h : Ordered past e)
    (hop : WritesInTurn past e (.postSend wr)) : IbvVirtualQp.Sendable e.vqp.maxMsgSize_ wr := by
  rcases hop with ⟨⟨hnum, ⟨sg, hsg, hlen, hlen'⟩, hopcode, hsig, _⟩, himm⟩
  have hmax := h.accounts.receiving.size
  have hle := segments_le hmax hlen
  have hsize := h.size
  have hfit : ((IbvVirtualQp.segments e.vqp.maxMsgSize_ sg.length : ℕ) : ℤ) ≤ INT_MAX := by
    simp only [INT_MAX]
    omega
  have hsum : (sg.length : ℤ) + e.vqp.maxMsgSize_ ≤ 2 ^ 32 := by
    simp only [INT_MAX] at hsize
    omega
  exact
    { num_sge := hnum
      sg := ⟨sg, hsg, ⟨hlen, hsum, hfit⟩, fun hwith => himm hwith sg hsg⟩
      opcode := by
        rcases hopcode with hwrite | hwith
        · exact Or.inl hwrite
        · exact Or.inr (Or.inl hwith)
      signaled := Or.inr hsig }

theorem Ordered.postSend (h : Ordered past e) (hop : WritesInTurn past e (.postSend wr)) :
    ∃ e', e.postSend wr = .ok e' ∧ Ordered (past ++ [.postSend wr]) e' := by
  have hnew : wr.wr_id ∉ (posts past).map IbvSendWr.wr_id := hop.1.2.2.2.2
  have hsend : wr.wr_id ∉ wrIds (e.cqs e.sendCq).pendingSendVirtualWcQue_ :=
    fun hin => hnew (h.known _ hin)
  have hrecv : wr.wr_id ∉ wrIds (e.cqs e.sendCq).pendingRecvVirtualWcQue_ := by
    rw [wrIds, h.noRecv]
    exact List.not_mem_nil
  rcases h.accounts.postSend (h.sendable hop) hsend hrecv with
    ⟨n, extra, v, cq, hok, hacc, hmany, hextra, hmoved, hstop, hleft, hunn, hitems, hitems'⟩
  have hzero := h.accounts.new_id hsend
  have hnotify : v.notifyQp_ = e.vqp.notifyQp_ := hmoved.notifyQp
  have hposts : posts (past ++ [.postSend wr]) = posts past ++ [wr] := posts_concat _ _
  have hmessages : messages (past ++ [.postSend wr]) =
      messages past ++ if extra then [wr] else [] := by
    rw [messages, hposts, List.filter_append, List.filter_singleton]
    cases extra with
    | true => simp [messages, hextra.mp rfl]
    | false =>
      have hwith : wr.opcode ≠ .IBV_WR_RDMA_WRITE_WITH_IMM := fun hwith => by
        have hset := hextra.mpr hwith
        cases hset
      simp [messages, hwith]
  refine ⟨_, hok, ?_⟩
  exact
    { accounts := hacc
      stopped := hstop
      room := by
        change v.maxMsgCntPerQp_ ≠ 0 ∧ INT_MIN ≤ v.maxMsgCntPerQp_ ∧ v.maxMsgCntPerQp_ ≤ INT_MAX
        rw [hmoved.maxMsgCnt]
        exact h.room
      size := by
        change v.maxMsgSize_ ≤ INT_MAX
        rw [hmoved.maxMsgSize]
        exact h.size
      noRecv := by
        simp only [updateCq, Function.update_self, hitems']
        exact h.noRecv
      known := by
        intro id hid
        simp only [updateCq, Function.update_self, wrIds, hitems, StableDeque.push_back,
          List.map_append, List.mem_append] at hid
        rw [hposts, List.map_append, List.mem_append]
        rcases hid with hid | hid
        · exact Or.inl (h.known id hid)
        · exact Or.inr hid
      distinct := by
        rw [hposts, List.map_append]
        apply List.Nodup.append h.distinct (List.nodup_singleton _)
        rw [List.disjoint_singleton]
        exact hnew
      order := by
        simp only [updateCq, hnotify, hunn, hmessages, List.map_append, ← List.append_assoc, h.order]
      unfinished := by
        intro wr' hwr'
        simp only [updateCq, hleft]
        change wr' ∈ v.unnotified at hwr'
        rw [hunn] at hwr'
        rcases List.mem_append.mp hwr' with hwr' | hwr'
        · have htwo := h.unfinished wr' hwr'
          have hne : wr.wr_id ≠ wr'.wr_id := by
            intro heq
            rw [← heq] at htwo
            omega
          rw [if_neg hne]
          omega
        · cases extra with
          | false => simp at hwr'
          | true =>
            have hn := hmany rfl
            simp only [if_true, List.mem_singleton] at hwr'
            subst hwr'
            rw [if_pos rfl]
            omega
      finished := by
        intro x hx
        simp only [updateCq, hleft, hnotify] at hx ⊢
        have hne : wr.wr_id ≠ x.virtualWrId := by
          intro heq
          rw [heq] at hnew
          exact hnew (h.posted_mem hx)
        rw [if_neg hne, Int.add_zero]
        exact h.finished x hx }

/-! ### Completing -/

theorem posts_silent (past : List Op) {op : Op} (hop : op.posted = none) :
    posts (past ++ [op]) = posts past := by
  rw [posts_concat, hop]
  exact List.append_nil _

section

variable (h : Ordered past e)
include h

theorem Ordered.notifyDue {i : ℕ} {q : IbvQp}
    {xs : List SendWqe} (hq : e.vqp.qp? (some i) = some q) (hout : q.sq.outstanding = x :: xs)
    (hturn : InTurn e i) (hmem : x.virtualWrId ∈ e.vqp.unnotified.map IbvSendWr.wr_id)
    (htwo : e.vqp.sendLeft x.virtualWrId = 2) :
    ∃ w ws, e.vqp.pendingSendNotifyVirtualWrQue_ = w :: ws ∧ w.wr.wr_id = x.virtualWrId := by
  have hin : x.virtualWrId ∈ e.notifyIds := by
    rcases List.mem_map.mp hmem with ⟨wr, hwr, hid⟩
    rcases List.mem_append.mp hwr with hwr | hwr
    · rcases List.mem_map.mp hwr with ⟨w, hw, rfl⟩
      rw [← hid]
      exact List.mem_map_of_mem hw
    · -- two parts that wait and one in flight are more than are left
      rcases List.mem_map.mp hwr with ⟨w, hw, rfl⟩
      rcases List.mem_filter.mp hw with ⟨hw, hextra⟩
      have hs := h.accounts.sending
      have hgt := (hs.pending w hw).extra hextra
      have hle := le_waiting (fun w hw => (hs.pending w hw).left) hw
      have hwait := hs.waiting_nonneg x.virtualWrId
      have hfly : 0 < IbvVirtualQp.inFlight IbvQp.physicalSendWrStatus_ e.vqp x.virtualWrId := by
        have hmem := IbvVirtualQp.mem_qps hq
        apply Int.lt_of_lt_of_le _ (IbvVirtualQp.statusCount_le_inFlight _ hmem _)
        rw [statusCount_pos, hs.mirror q hmem, hout]
        exact ⟨x.status, List.mem_cons_self .., rfl⟩
      rw [hid] at hle
      simp only [IbvVirtualQp.sendLeft] at htwo
      omega
  have hhead := hturn q hq x (by rw [hout]; rfl) hin htwo
  rw [notifyIds] at hhead
  cases hfront : e.vqp.pendingSendNotifyVirtualWrQue_ with
  | nil =>
    rw [hfront] at hhead
    cases hhead
  | cons w ws =>
    rw [hfront] at hhead
    exact ⟨w, ws, rfl, Option.some.inj hhead⟩

theorem Ordered.sendCompletion {k : Option ℕ} (wc : IbvWc)
    (hop : WritesInTurn past e (.sendCompletion k wc)) :
    ∃ e', e.sendCompletion k wc = .ok e' ∧ Ordered (past ++ [.sendCompletion k wc]) e' := by
  rcases Option.isSome_iff_exists.mp hop.1 with ⟨q, hq⟩
  have hposts : posts (past ++ [.sendCompletion k wc]) = posts past := posts_silent past rfl
  have hmessages : messages (past ++ [.sendCompletion k wc]) = messages past := by
    rw [messages, hposts, messages]
  cases hout : q.sq.outstanding with
  | nil =>
    refine ⟨e, sendCompletion_of_empty hq hout wc, ?_⟩
    exact
      { h with
        known := by
          rw [hposts]
          exact h.known
        distinct := by
          rw [hposts]
          exact h.distinct
        order := by
          rw [hmessages]
          exact h.order }
  | cons x xs =>
    rcases h.accounts.sendCompletion hq hout wc with
      ⟨sq, v, v', _, cq, pwc, hok, haccv, hacc, hposted, hmoved, hstop, hleft, hdue, hnotdue, _, _,
        hitems, hitems', _⟩
    have hunn : v.unnotified = e.vqp.unnotified := by
      rw [hmoved.unnotified]
      cases k <;> rfl
    have hlog : v.notifyQp_.sq.posted = e.vqp.notifyQp_.sq.posted := by
      rw [hmoved.notifyQp]
      cases k with
      | none =>
        rw [Option.some.inj hq]
        exact hposted
      | some i => rfl
    have hcount := h.accounts.notifyCount hq hout hmoved.notifyQp
    have hfinished : ∀ y ∈ e.vqp.notifyQp_.sq.posted, v.sendLeft y.virtualWrId =
        statusCount y.virtualWrId v.notifyQp_.physicalSendWrStatus_ := by
      intro y hy
      have hold := h.finished y hy
      have hc := hcount y.virtualWrId
      rw [hleft]
      cases k with
      | none =>
        simp only [true_and] at hc
        omega
      | some i =>
        have hne : x.virtualWrId ≠ y.virtualWrId := by
          intro heq
          have hdata := h.accounts.notifyCount_data hq hout
          rw [heq] at hdata
          omega
        simp only [reduceCtorEq, false_and, if_false] at hc
        rw [if_neg hne]
        omega
    have hunfinished : ∀ wr ∈ e.vqp.unnotified, 2 ≤ v.sendLeft wr.wr_id ∨
        wr.wr_id = x.virtualWrId ∧ NotifyDue v x.virtualWrId := by
      intro wr hwr
      have htwo := h.unfinished wr hwr
      by_cases hx : x.virtualWrId = wr.wr_id
      · cases k with
        | none =>
          have hmem : x ∈ e.vqp.notifyQp_.sq.posted := by
            rw [Option.some.inj hq]
            exact List.mem_of_mem_drop (hout ▸ List.mem_cons_self : x ∈ q.sq.outstanding)
          exact absurd hx (h.apart hmem hwr)
        | some i =>
          by_cases hlast : e.vqp.sendLeft x.virtualWrId = 2
          · right
            rcases h.notifyDue hq hout hop.2 (hx ▸ List.mem_map_of_mem hwr) hlast with
              ⟨y, ws, hfront, hid⟩
            have hpre : e.vqp.pendingSendNotifyVirtualWrQue_ <+: v.pendingSendNotifyVirtualWrQue_ :=
              hmoved.notifyQue
            rw [hfront] at hpre
            rcases hpre with ⟨t, ht⟩
            refine ⟨hx.symm, ?_, y, ws ++ t, ht.symm, hid⟩
            rw [hleft, if_pos rfl]
            omega
          · left
            rw [hleft, if_pos hx]
            rw [hx] at hlast
            omega
      · left
        rw [hleft, if_neg hx]
        omega
    have hids : wrIds cq.pendingSendVirtualWcQue_ =
        wrIds (e.cqs e.sendCq).pendingSendVirtualWcQue_ := by
      rw [wrIds, hitems, List.map_map]
      apply List.map_congr_left
      intro u _
      simp only [Function.comp_apply]
      split <;> rfl
    have hroom : v.maxMsgCntPerQp_ = e.vqp.maxMsgCntPerQp_ := by
      rw [hmoved.maxMsgCnt]
      cases k <;> rfl
    have hsize : v.maxMsgSize_ = e.vqp.maxMsgSize_ := by
      rw [hmoved.maxMsgSize]
      cases k <;> rfl
    -- the parts of the invariant that the notification does not touch
    have hkeep : ∀ u : IbvVirtualQp, Accounts ({ e with vqp := u }.updateCq e.sendCq cq) →
        u.Stopped → u.maxMsgCntPerQp_ = v.maxMsgCntPerQp_ → u.maxMsgSize_ = v.maxMsgSize_ →
        u.notifyQp_.sq.posted.map SendWqe.notification ++
          u.unnotified.map IbvSendWr.notification =
            v.notifyQp_.sq.posted.map SendWqe.notification ++
              v.unnotified.map IbvSendWr.notification →
        (∀ wr ∈ u.unnotified, 2 ≤ u.sendLeft wr.wr_id) →
        (∀ y ∈ u.notifyQp_.sq.posted, u.sendLeft y.virtualWrId =
          statusCount y.virtualWrId u.notifyQp_.physicalSendWrStatus_) →
        Ordered (past ++ [.sendCompletion k wc]) ({ e with vqp := u }.updateCq e.sendCq cq) := by
      intro u hacc hstop hcnt hmax horder hunf hfin
      exact
        { accounts := hacc
          stopped := hstop
          room := by
            simp only [updateCq, hcnt, hroom]
            exact h.room
          size := by
            simp only [updateCq, hmax, hsize]
            exact h.size
          noRecv := by
            simp only [updateCq, Function.update_self, hitems']
            exact h.noRecv
          known := by
            simp only [updateCq, Function.update_self, hids, hposts]
            exact h.known
          distinct := by
            rw [hposts]
            exact h.distinct
          order := by
            rw [hmessages, ← h.order, ← hlog, ← hunn]
            exact horder
          unfinished := hunf
          finished := hfin }
    refine ⟨_, hok, ?_⟩
    by_cases hd : NotifyDue v x.virtualWrId
    · have hpost := hdue hd
      rcases hd with ⟨hone, y, ws, hfront, hid⟩
      rcases IbvVirtualQp.postSendNotifyImm_spec (v := v) haccv.sending hfront with
        ⟨wr, u, hu, hqp, himm, hraddr, hrkey, hopcode, hs, hleft', hunn', hqps, hpend, _, _, hcnt,
          hmax, _⟩
      rw [hpost, Except.ok.injEq] at hu
      subst hu
      have hposted' : v'.notifyQp_.sq.posted = v.notifyQp_.sq.posted ++ [⟨wr, y.wr.wr_id⟩] := by
        rw [hqp]
        rfl
      have hcount' : ∀ id, statusCount id v'.notifyQp_.physicalSendWrStatus_ =
          statusCount id v.notifyQp_.physicalSendWrStatus_ +
            if y.wr.wr_id = id then 1 else 0 := by
        intro id
        rw [hqp, statusCount_postSend]
      have hcons : e.vqp.unnotified = y.wr :: v'.unnotified := by rw [← hunn, hunn']
      have htail : y.wr.wr_id ∉ v'.unnotified.map IbvSendWr.wr_id := by
        have hnodup := (List.nodup_append'.mp h.ids_nodup).2.1
        rw [hcons, List.map_cons, List.nodup_cons] at hnodup
        exact hnodup.1
      apply hkeep v' hacc _ hcnt hmax
      · rw [hposted', hunn', List.map_append, List.map_cons, List.append_assoc]
        simp only [List.map_cons, List.map_nil, List.cons_append, List.nil_append,
          SendWqe.notification, IbvSendWr.notification, himm, hraddr, hrkey, hopcode]
      · intro wr' hwr'
        rw [hleft']
        rcases hunfinished wr' (by rw [hcons]; exact List.mem_cons_of_mem _ hwr') with
          htwo | ⟨hid', _⟩
        · exact htwo
        · rw [← hid] at hid'
          exact absurd (hid' ▸ List.mem_map_of_mem hwr') htail
      · intro z hz
        rw [hposted'] at hz
        rw [hleft', hcount']
        rcases List.mem_append.mp hz with hz | hz
        · rw [hlog] at hz
          have hne : y.wr.wr_id ≠ z.virtualWrId :=
            (h.apart hz (by rw [hcons]; exact List.mem_cons_self)).symm
          rw [if_neg hne, Int.add_zero]
          exact hfinished z hz
        · rw [List.mem_singleton.mp hz]
          change v.sendLeft y.wr.wr_id = statusCount y.wr.wr_id v.notifyQp_.physicalSendWrStatus_ +
            if y.wr.wr_id = y.wr.wr_id then 1 else 0
          have hle := hs.statusCount_le (List.mem_cons_self : v'.notifyQp_ ∈ v'.qps) y.wr.wr_id
          have hnonneg := statusCount_nonneg y.wr.wr_id v.notifyQp_.physicalSendWrStatus_
          rw [hcount', if_pos rfl, hleft', hid] at hle
          rw [if_pos rfl]
          rw [hid] at hnonneg ⊢
          omega
      · intro hne
        rw [hpend] at hne
        rw [hqps]
        simpa only [IbvVirtualQp.hasRoom, hcnt] using hstop h.stopped hne
    · rw [hnotdue hd]
      have hacc' := hacc
      rw [hnotdue hd] at hacc'
      apply hkeep v hacc' (hstop h.stopped) rfl rfl rfl
      · intro wr hwr
        rw [hunn] at hwr
        rcases hunfinished wr hwr with htwo | ⟨_, hd'⟩
        · exact htwo
        · exact absurd hd' hd
      · rw [hlog]
        exact hfinished

/-! ### Polling and the whole run -/

theorem Ordered.pollVirtualCq (c numEntries : ℕ) :
    ∃ e', e.step (.pollVirtualCq c numEntries) = .ok e' ∧
      Ordered (past ++ [.pollVirtualCq c numEntries]) e' := by
  rcases h.accounts.pollVirtualCq c numEntries with ⟨wcs, cq, ps, pr, hpoll, hacc, hpolled⟩
  have hposts : posts (past ++ [.pollVirtualCq c numEntries]) = posts past := posts_silent past rfl
  have hsends := hpolled.sends
  have hrecvs := hpolled.recvs
  refine ⟨e.updateCq c cq, by simp only [step, hpoll, Except.map], ?_⟩
  exact
    { accounts := hacc
      __ := h
      noRecv := by
        by_cases hc : e.sendCq = c
        · subst hc
          simp only [updateCq, Function.update_self]
          rw [h.noRecv] at hrecvs
          exact (List.append_eq_nil_iff.mp hrecvs.symm).2
        · simp only [updateCq, Function.update_of_ne hc]
          exact h.noRecv
      known := by
        rw [hposts]
        by_cases hc : e.sendCq = c
        · subst hc
          simp only [updateCq, Function.update_self]
          exact fun id hid => h.known id (Ledger.wrIds_subset hsends id hid)
        · simp only [updateCq, Function.update_of_ne hc]
          exact h.known
      distinct := by
        rw [hposts]
        exact h.distinct
      order := by
        rw [messages, hposts]
        exact h.order }

theorem Ordered.step {op : Op} (hop : WritesInTurn past e op) :
    ∃ e', e.step op = .ok e' ∧ Ordered (past ++ [op]) e' := by
  cases op with
  | postSend wr => exact h.postSend hop
  | sendCompletion k wc => exact h.sendCompletion wc hop
  | pollVirtualCq c numEntries => exact h.pollVirtualCq c numEntries
  | postRecv wr => exact hop.1.elim
  | recvCompletion k withImm wc => exact hop.1.elim

end

theorem ordered_create {qpNums : List ℕ} {notifyQpNum : ℕ} (hne : qpNums ≠ [])
    (hnodup : (notifyQpNum :: qpNums).Nodup) {maxMsgCntPerQp maxMsgSize : ℤ}
    (hcnt : maxMsgCntPerQp ≠ 0 ∧ INT_MIN ≤ maxMsgCntPerQp ∧ maxMsgCntPerQp ≤ INT_MAX)
    (hmax : 1 ≤ maxMsgSize ∧ maxMsgSize ≤ INT_MAX) (sendCq recvCq : ℕ) :
    Ordered [] (create qpNums notifyQpNum maxMsgCntPerQp maxMsgSize .SPRAY sendCq recvCq) where
  accounts := accounts_create hne hnodup maxMsgCntPerQp hmax.1 sendCq recvCq
  stopped := fun hne => absurd rfl hne
  room := hcnt
  size := hmax.2
  noRecv := rfl
  known := by simp [create, wrIds]
  distinct := List.nodup_nil
  order := rfl
  unfinished := by simp [create, IbvVirtualQp.create, IbvVirtualQp.unnotified]
  finished := by simp [create, IbvVirtualQp.create]

theorem waiting_le_one (id : ℕ) {ws : List VirtualSendWr}
    (hnodup : (ws.map fun w => w.wr.wr_id).Nodup) (hone : ∀ w ∈ ws, w.remainingMsgCnt = 1) :
    waiting id ws ≤ 1 := by
  induction ws with
  | nil => exact Int.zero_le_ofNat 1
  | cons w ws ih =>
    rw [List.map_cons, List.nodup_cons] at hnodup
    have hle := ih hnodup.2 fun x hx => hone x (List.mem_cons_of_mem _ hx)
    by_cases hw : w.wr.wr_id = id
    · have hzero : waiting id ws = 0 := by
        apply List.sum_eq_zero
        intro n hn
        rcases List.mem_map.mp hn with ⟨x, hx, rfl⟩
        apply if_neg
        intro hid
        exact hnodup.1 (hw.trans hid.symm ▸ List.mem_map_of_mem hx)
      rw [waiting_cons, share, if_pos hw, hone w List.mem_cons_self, hzero]
      decide
    · rw [waiting_cons, share, if_neg hw, Int.zero_add]
      exact hle

theorem Ordered.settled (h : Ordered past e) (hquiet : ∀ q ∈ e.vqp.qps, q.sq.outstanding = []) :
    e.vqp.pendingSendVirtualWrQue_ = [] ∧ e.vqp.pendingSendNotifyVirtualWrQue_ = [] ∧
      ∀ id, e.vqp.sendLeft id = 0 := by
  have hs := h.accounts.sending
  have hstatus : ∀ q ∈ e.vqp.qps, q.physicalSendWrStatus_ = [] := by
    intro q hq
    rw [hs.mirror q hq, hquiet q hq, List.map_nil]
  have hfly : ∀ id, IbvVirtualQp.inFlight IbvQp.physicalSendWrStatus_ e.vqp id = 0 := by
    intro id
    apply List.sum_eq_zero
    intro n hn
    rcases List.mem_map.mp hn with ⟨q, hq, rfl⟩
    rw [hstatus q hq, statusCount_nil]
  have hpend : e.vqp.pendingSendVirtualWrQue_ = [] := by
    by_contra hne
    rcases h.stopped hne with ⟨q, hq, hroom⟩
    rw [hstatus q (List.mem_cons_of_mem _ hq), IbvVirtualQp.hasRoom, decide_eq_true_eq,
      List.length_nil] at hroom
    have hcnt := h.room
    simp only [u64, INT_MIN, INT_MAX] at hroom hcnt
    omega
  have hnotify : e.vqp.pendingSendNotifyVirtualWrQue_ = [] := by
    by_contra hne
    rcases List.exists_mem_of_ne_nil _ hne with ⟨w, hw⟩
    have hunn : e.vqp.unnotified = e.vqp.pendingSendNotifyVirtualWrQue_.map VirtualSendWr.wr := by
      rw [IbvVirtualQp.unnotified, hpend]
      simp
    have htwo := h.unfinished w.wr (by rw [hunn]; exact List.mem_map_of_mem hw)
    have hnodup := (List.nodup_append'.mp h.ids_nodup).2.1
    rw [hunn, List.map_map] at hnodup
    have hle := waiting_le_one w.wr.wr_id hnodup fun w hw => (hs.notifies w hw).left
    simp only [IbvVirtualQp.sendLeft, hpend, waiting_nil, hfly] at htwo
    omega
  refine ⟨hpend, hnotify, ?_⟩
  intro id
  simp only [IbvVirtualQp.sendLeft, hpend, hnotify, waiting_nil, hfly]
  rfl

theorem Ordered.notified (h : Ordered past e) : Notified past e where
  inOrder := ⟨_, h.order⟩
  afterData := by
    intro x hx
    have hs := h.accounts.sending
    have hfin := h.finished x hx
    constructor
    · intro w hw hid
      have hle := le_waiting (fun w hw => (hs.pending w hw).left) hw
      have hpos := (hs.pending w hw).left
      have hwait := hs.waiting_nonneg x.virtualWrId
      have hfly := IbvVirtualQp.statusCount_le_inFlight IbvQp.physicalSendWrStatus_
        (List.mem_cons_self : e.vqp.notifyQp_ ∈ e.vqp.qps) x.virtualWrId
      rw [hid] at hle
      simp only [IbvVirtualQp.sendLeft] at hfin
      omega
    · intro q hq y hy hid
      rcases List.mem_iff_getElem?.mp hq with ⟨i, hi⟩
      have hadd := hs.statusCount_add_le hi x.virtualWrId
      have hpos : 0 < statusCount x.virtualWrId q.physicalSendWrStatus_ := by
        rw [statusCount_pos, hs.mirror q (List.mem_cons_of_mem _ hq)]
        exact ⟨y.status, List.mem_map_of_mem hy, hid⟩
      omega
  settled := by
    intro hquiet
    rcases h.settled hquiet with ⟨hpend, hnotify, hzero⟩
    refine ⟨hpend, hnotify, ?_, ?_⟩
    · intro w hw
      rw [h.accounts.sendLedger.send.exact w hw]
      exact hzero _
    · have horder := h.order
      rw [IbvVirtualQp.unnotified, hpend, hnotify] at horder
      simpa using horder

/-- In SPRAY mode, messages that finish in the order of their posts are notified exactly once,
in that order and after their data. -/
theorem notified_of_writesInTurn {qpNums : List ℕ} {notifyQpNum : ℕ} (hne : qpNums ≠ [])
    (hnodup : (notifyQpNum :: qpNums).Nodup) {maxMsgCntPerQp maxMsgSize : ℤ}
    (hcnt : maxMsgCntPerQp ≠ 0 ∧ INT_MIN ≤ maxMsgCntPerQp ∧ maxMsgCntPerQp ≤ INT_MAX)
    (hmax : 1 ≤ maxMsgSize ∧ maxMsgSize ≤ INT_MAX) (sendCq recvCq : ℕ) (ops : List Op)
    (hadm : Admissible step WritesInTurn []
      (create qpNums notifyQpNum maxMsgCntPerQp maxMsgSize .SPRAY sendCq recvCq) ops) :
    ∃ e, run step (create qpNums notifyQpNum maxMsgCntPerQp maxMsgSize .SPRAY sendCq recvCq)
      ops = .ok e ∧ Notified ops e := by
  rcases run_invariant Ordered (fun _ _ _ h hop => h.step hop) ops
    (ordered_create hne hnodup hcnt hmax sendCq recvCq) hadm with ⟨e, he, hordered⟩
  exact ⟨e, he, hordered.notified⟩

/-- Two messages of two segments each, over two data QPs. -/
theorem notified_of_writesInTurn_two :
    ∃ e, run step (create [10, 11] 12 4 100 .SPRAY 0 1)
        [.postSend ⟨1, some ⟨0, 150, 0⟩, 1, .IBV_WR_RDMA_WRITE_WITH_IMM, 2, 5, 0, 0⟩,
          .postSend ⟨2, some ⟨0, 150, 0⟩, 1, .IBV_WR_RDMA_WRITE_WITH_IMM, 2, 6, 0, 0⟩,
          .sendCompletion (some 1) {}, .sendCompletion (some 1) {}, .sendCompletion (some 0) {},
          .sendCompletion (some 0) {}, .sendCompletion none {}, .sendCompletion none {}] = .ok e ∧
      Notified [.postSend ⟨1, some ⟨0, 150, 0⟩, 1, .IBV_WR_RDMA_WRITE_WITH_IMM, 2, 5, 0, 0⟩,
          .postSend ⟨2, some ⟨0, 150, 0⟩, 1, .IBV_WR_RDMA_WRITE_WITH_IMM, 2, 6, 0, 0⟩,
          .sendCompletion (some 1) {}, .sendCompletion (some 1) {}, .sendCompletion (some 0) {},
          .sendCompletion (some 0) {}, .sendCompletion none {}, .sendCompletion none {}] e :=
  notified_of_writesInTurn (by decide) (by decide) (by decide) (by decide) 0 1 _ (by decide)

/-- The second message finishes first: its notification is not posted then, and never after. -/
theorem not_notified_of_writes :
    ¬ ∀ (qpNums : List ℕ) (notifyQpNum : ℕ) (maxMsgCntPerQp maxMsgSize : ℤ) (sendCq recvCq : ℕ)
      (ops : List Op), qpNums ≠ [] → (notifyQpNum :: qpNums).Nodup →
      (maxMsgCntPerQp ≠ 0 ∧ INT_MIN ≤ maxMsgCntPerQp ∧ maxMsgCntPerQp ≤ INT_MAX) →
      (1 ≤ maxMsgSize ∧ maxMsgSize ≤ INT_MAX) →
      Admissible step Writes []
        (create qpNums notifyQpNum maxMsgCntPerQp maxMsgSize .SPRAY sendCq recvCq) ops →
      ∃ e, run step (create qpNums notifyQpNum maxMsgCntPerQp maxMsgSize .SPRAY sendCq recvCq)
        ops = .ok e ∧ Notified ops e := by
  intro hall
  rcases hall [10, 11] 12 4 100 0 0
    [.postSend ⟨1, some ⟨0, 50, 0⟩, 1, .IBV_WR_RDMA_WRITE_WITH_IMM, 2, 0, 0, 0⟩,
      .postSend ⟨2, some ⟨0, 50, 0⟩, 1, .IBV_WR_RDMA_WRITE_WITH_IMM, 2, 0, 0, 0⟩,
      .sendCompletion (some 1) {}, .sendCompletion (some 0) {}, .sendCompletion none {}]
    (by decide) (by decide) (by decide) (by decide) (by decide) with ⟨e, hrun, hnotified⟩
  cases hrun
  exact absurd (hnotified.settled (by decide)).2.1 (by decide)

end Endpoint
end TorchComms.Ibverbx
