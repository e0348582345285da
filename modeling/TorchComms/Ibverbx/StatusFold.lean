import TorchComms.Ibverbx.DqplbAccounts

/-! # The status of a virtual completion

Physical completions carry statuses, and a virtual completion is to carry the first failure among
those that belong to it. A send completion belongs to the request whose segment it completes, and
so does a receive completion in SPRAY mode. In DQPLB mode it belongs to the message that its
immediate data places it in, and the messages to the receives in the order of their posts; there
the completions are counted only, and their statuses are dropped.
-/
namespace TorchComms.Ibverbx

open Foundation

/-! ### The first failure -/

/-- The status is success when all statuses of the log are, and else the first other one. -/
def Told (log : List IbvWcStatus) (status : IbvWcStatus) : Prop :=
  (status = .IBV_WC_SUCCESS ↔ ∀ st ∈ log, st = .IBV_WC_SUCCESS) ∧
    (status ≠ .IBV_WC_SUCCESS → log.find? (fun st => st ≠ .IBV_WC_SUCCESS) = some status)

theorem told_nil : Told [] .IBV_WC_SUCCESS := ⟨by simp, fun h => absurd rfl h⟩

theorem told_success_iff (log : List IbvWcStatus) :
    Told log .IBV_WC_SUCCESS ↔ ∀ st ∈ log, st = .IBV_WC_SUCCESS :=
  ⟨fun h => h.1.mp rfl, fun h => ⟨⟨fun _ => h, fun _ => rfl⟩, fun hne => absurd rfl hne⟩⟩

theorem Told.concat {log : List IbvWcStatus} {status : IbvWcStatus} (h : Told log status)
    (st : IbvWcStatus) : Told (log ++ [st])
      (if st ≠ .IBV_WC_SUCCESS ∧ status = .IBV_WC_SUCCESS then st else status) := by
  by_cases hstatus : status = .IBV_WC_SUCCESS
  · have hall := h.1.mp hstatus
    have hnone : log.find? (fun st => st ≠ .IBV_WC_SUCCESS) = none := by
      rw [List.find?_eq_none]
      intro x hx
      simp [hall x hx]
    by_cases hst : st = .IBV_WC_SUCCESS
    · rw [if_neg (fun hne => hne.1 hst), hstatus, told_success_iff]
      intro x hx
      rcases List.mem_append.mp hx with hx | hx
      · exact hall x hx
      · rw [List.mem_singleton.mp hx, hst]
    · rw [if_pos ⟨hst, hstatus⟩]
      constructor
      · exact ⟨fun heq => absurd heq hst, fun hmem => hmem st (by simp)⟩
      · intro _
        rw [List.find?_append, hnone]
        simp [hst]
  · rw [if_neg (fun hne => hstatus hne.2)]
    have hfirst := h.2 hstatus
    constructor
    · constructor
      · exact fun heq => absurd heq hstatus
      · intro hmem
        exact hmem status (List.mem_append_left _ (List.mem_of_find?_eq_some hfirst))
    · intro _
      rw [List.find?_append, hfirst]
      rfl

section Queue

variable {items items' : List VirtualWc} {logs : ℕ → List IbvWcStatus} {id : ℕ}

/-- Each virtual completion has the status that its log tells. -/
def AllTold (items : List VirtualWc) (logs : ℕ → List IbvWcStatus) : Prop :=
  ∀ w ∈ items, Told (logs w.wr_id) w.wc.status

theorem AllTold.charge (h : AllTold items logs) {pwc : IbvWc}
    (hitems : items' = items.map fun u => if u.wr_id = id then u.charge pwc else u) :
    AllTold items' (Function.update logs id (logs id ++ [pwc.status])) := by
  intro w hw
  rw [hitems] at hw
  rcases List.mem_map.mp hw with ⟨u, hu, rfl⟩
  by_cases hid : u.wr_id = id
  · rw [if_pos hid, VirtualWc.charge_wr_id, hid, Function.update_self]
    have hold := h u hu
    rw [hid] at hold
    exact hold.concat pwc.status
  · rw [if_neg hid, Function.update_of_ne hid]
    exact h u hu

theorem AllTold.push (h : AllTold items logs) (hnew : id ∉ items.map VirtualWc.wr_id) (qpNum : ℕ)
    (n : ℤ) (extra : Bool) :
    AllTold (items ++ [.fresh id qpNum n extra]) (Function.update logs id []) := by
  intro w hw
  rcases List.mem_append.mp hw with hold | hw
  · have hne : w.wr_id ≠ id := by
      rintro rfl
      exact hnew (List.mem_map_of_mem hold)
    rw [Function.update_of_ne hne]
    exact h w hold
  · rw [List.mem_singleton.mp hw]
    have hlog : Function.update logs id [] (VirtualWc.fresh id qpNum n extra).wr_id = [] :=
      Function.update_self ..
    rw [hlog]
    exact told_nil

end Queue

/-! ### An endpoint with its statuses -/

/-- What has arrived in DQPLB mode: the statuses held until their turn, those of the message that is
arriving, and those of the messages that have arrived. -/
structure Arrivals where
  held : ReorderBuffer (Bool × IbvWcStatus) := {}
  current : List IbvWcStatus := []
  messages : List (List IbvWcStatus) := []

namespace Arrivals

/-- The next segment in order, which ends its message if the first component says so. -/
def next (a : Arrivals) (segment : Bool × IbvWcStatus) : Arrivals :=
  if segment.1 then { a with current := [], messages := a.messages ++ [a.current ++ [segment.2]] }
  else { a with current := a.current ++ [segment.2] }

/-- A segment arrives; its immediate data says which it is and whether it is the last. -/
def arrive (a : Arrivals) (immData : ℕ) (status : IbvWcStatus) : Arrivals :=
  let r := ReorderBuffer.receive kSeqNumMask (immData &&& kSeqNumMask)
    (immData &&& 1 <<< kNotifyBit != 0, status) a.held
  r.1.foldl next { a with held := r.2 }

end Arrivals

/-- An endpoint with the statuses of the physical completions of each request, by its id, and in
DQPLB mode by message. `returned` receives have been reported. -/
structure Audit where
  e : Endpoint
  sends : ℕ → List IbvWcStatus := fun _ => []
  recvs : ℕ → List IbvWcStatus := fun _ => []
  arrivals : Arrivals := {}
  returned : ℕ := 0

namespace Audit

variable {s : Audit}

/-- The log after an operation that leads to `e'`. -/
def note (s : Audit) (op : Endpoint.Op) (e' : Endpoint) : Audit :=
  match op with
  | .postSend wr => { s with e := e', sends := Function.update s.sends wr.wr_id [] }
  | .postRecv wr => { s with e := e', recvs := Function.update s.recvs wr.wr_id [] }
  | .sendCompletion qpIdx wc =>
    match (s.e.vqp.qp? qpIdx).bind IbvQp.completeSend with
    | none => { s with e := e' }
    | some (x, _) => { s with
        e := e'
        sends := Function.update s.sends x.virtualWrId (s.sends x.virtualWrId ++ [wc.status]) }
  | .recvCompletion qpIdx withImm wc =>
    match (s.e.vqp.qp? qpIdx).bind IbvQp.completeRecv with
    | none => { s with e := e' }
    | some (x, _) => { s with
        e := e'
        recvs := Function.update s.recvs x.virtualWrId (s.recvs x.virtualWrId ++ [wc.status])
        arrivals := s.arrivals.arrive (if withImm then wc.imm_data else 0) wc.status }
  | .pollVirtualCq _ _ => { s with
      e := e'
      returned := s.returned +
        ((s.e.cqs s.e.recvCq).pendingRecvVirtualWcQue_.items.length -
          (e'.cqs e'.recvCq).pendingRecvVirtualWcQue_.items.length) }

def step (s : Audit) (op : Endpoint.Op) : Except Fault Audit := (s.e.step op).map (s.note op)

/-- The statuses of the receive that is reported after `i` others and has the id. -/
def recvLog (s : Audit) (i id : ℕ) : List IbvWcStatus :=
  match s.e.vqp.loadBalancingScheme_ with
  | .SPRAY => s.recvs id
  | .DQPLB => s.arrivals.messages.getD (s.returned + i) []

/-- Requests that keep apart. -/
def Apart (past : List Endpoint.Op) (s : Audit) (op : Endpoint.Op) : Prop :=
  Endpoint.Apart past s.e op

instance (past : List Endpoint.Op) (s : Audit) (op : Endpoint.Op) : Decidable (Apart past s op) :=
  inferInstanceAs (Decidable (Endpoint.Apart past s.e op))

/-- A poll reports completed requests; each has the status that its physical completions tell,
a receive in DQPLB mode exactly when they are all successes. -/
def Judged (s : Audit) (c numEntries : ℕ) : Prop :=
  ∃ wcs e' ps pr, s.e.pollVirtualCq c numEntries = .ok (wcs, e') ∧
    (s.e.cqs c).pendingSendVirtualWcQue_.items =
      ps ++ (e'.cqs c).pendingSendVirtualWcQue_.items ∧
    (s.e.cqs c).pendingRecvVirtualWcQue_.items =
      pr ++ (e'.cqs c).pendingRecvVirtualWcQue_.items ∧
    wcs.Perm ((ps ++ pr).map VirtualWc.wc) ∧
    (∀ w ∈ ps, s.e.vqp.SendDone w.wr_id ∧ Told (s.sends w.wr_id) w.wc.status) ∧
    ∀ i w, pr[i]? = some w →
      (s.e.vqp.loadBalancingScheme_ = .SPRAY → s.e.vqp.RecvDone w.wr_id) ∧
      (Told (s.recvLog i w.wr_id) w.wc.status ↔ (s.e.vqp.loadBalancingScheme_ = .DQPLB →
        ∀ st ∈ s.recvLog i w.wr_id, st = .IBV_WC_SUCCESS))

/-! ### What the log does -/

section Note

variable {e' : Endpoint} {k : Option ℕ} {q : IbvQp} {wc : IbvWc} {withImm : Bool}

theorem note_e (s : Audit) (op : Endpoint.Op) (e' : Endpoint) : (s.note op e').e = e' := by
  cases op with
  | sendCompletion qpIdx wc =>
    simp only [note]
    split <;> rfl
  | recvCompletion qpIdx withImm wc =>
    simp only [note]
    split <;> rfl
  | _ => rfl

section

variable (hq : s.e.vqp.qp? k = some q)
include hq

theorem note_send_none (hout : q.sq.outstanding = []) :
    s.note (.sendCompletion k wc) e' = { s with e := e' } := by
  have hnone : q.completeSend = none := by
    simp only [IbvQp.completeSend, WorkQueue.completeNext_of_empty _ hout, Option.map_none]
  simp only [note, hq, Option.bind_some, hnone]

theorem note_recv_none (hout : q.rq.outstanding = []) :
    s.note (.recvCompletion k withImm wc) e' = { s with e := e' } := by
  have hnone : q.completeRecv = none := by
    simp only [IbvQp.completeRecv, WorkQueue.completeNext_of_empty _ hout, Option.map_none]
  simp only [note, hq, Option.bind_some, hnone]

theorem note_recv {x : RecvWqe} {xs : List RecvWqe}
    (hout : q.rq.outstanding = x :: xs) (withImm : Bool) (wc : IbvWc) (e' : Endpoint) :
    (s.note (.recvCompletion k withImm wc) e').sends = s.sends ∧
      (s.note (.recvCompletion k withImm wc) e').recvs =
        Function.update s.recvs x.virtualWrId (s.recvs x.virtualWrId ++ [wc.status]) := by
  rcases WorkQueue.completeNext_of_front (fun _ => true) hout rfl with ⟨rq, hcomplete, _⟩
  have hcomp : q.completeRecv = some (x, { q with rq := rq }) := by
    simp only [IbvQp.completeRecv, hcomplete, Option.map_some]
  simp only [note, hq, Option.bind_some, hcomp]
  exact ⟨trivial, trivial⟩

end

theorem note_send {x : SendWqe} {xs : List SendWqe} (hs : s.e.vqp.Sending)
    (hq : s.e.vqp.qp? k = some q) (hout : q.sq.outstanding = x :: xs) (wc : IbvWc) (e' : Endpoint) :
    (s.note (.sendCompletion k wc) e').recvs = s.recvs ∧
      (s.note (.sendCompletion k wc) e').sends =
        Function.update s.sends x.virtualWrId (s.sends x.virtualWrId ++ [wc.status]) := by
  rcases IbvVirtualQp.completeSend_spec hs hq hout with ⟨sq, _, hcomp, _⟩
  simp only [note, hq, Option.bind_some, hcomp]
  exact ⟨trivial, trivial⟩

end Note

end Audit

namespace Endpoint

variable {e : Endpoint} {v : IbvVirtualQp} {cq : IbvVirtualCq} {c : ℕ}

theorem pendingSend_updateCq
    (h : cq.pendingSendVirtualWcQue_ = (e.cqs c).pendingSendVirtualWcQue_) (d : ℕ) :
    (({ e with vqp := v }.updateCq c cq).cqs d).pendingSendVirtualWcQue_ =
      (e.cqs d).pendingSendVirtualWcQue_ := by
  by_cases hd : d = c
  · subst hd
    simpa only [updateCq, Function.update_self] using h
  · simp only [updateCq, Function.update_of_ne hd]

theorem pendingRecv_updateCq
    (h : cq.pendingRecvVirtualWcQue_ = (e.cqs c).pendingRecvVirtualWcQue_) (d : ℕ) :
    (({ e with vqp := v }.updateCq c cq).cqs d).pendingRecvVirtualWcQue_ =
      (e.cqs d).pendingRecvVirtualWcQue_ := by
  by_cases hd : d = c
  · subst hd
    simpa only [updateCq, Function.update_self] using h
  · simp only [updateCq, Function.update_of_ne hd]

theorem cqs_updateCq (c : ℕ) : ({ e with vqp := v }.updateCq c cq).cqs c = cq := by
  simp only [updateCq, Function.update_self]

end Endpoint

namespace Audit

open Endpoint

variable {s s' : Audit} {Received : List VirtualWc → (ℕ → List IbvWcStatus) → Prop}
  {v : IbvVirtualQp} {cq : IbvVirtualCq} {k : Option ℕ} {q : IbvQp} {qpNum : ℕ} {n : ℤ}

/-! ### The invariant

Sends are told their statuses in both modes. What holds of the receives is a parameter.
-/

structure Audited (Received : List VirtualWc → (ℕ → List IbvWcStatus) → Prop) (s : Audit) :
    Prop where
  homed : Homed s.e
  sends : AllTold (s.e.cqs s.e.sendCq).pendingSendVirtualWcQue_.items s.sends
  recvs : Received (s.e.cqs s.e.recvCq).pendingRecvVirtualWcQue_.items s.recvs

section

variable (h : Audited Received s)
include h

theorem Audited.moveSends
    (he : s'.e = { s.e with vqp := v }.updateCq s.e.sendCq cq)
    (hrecv : cq.pendingRecvVirtualWcQue_ = (s.e.cqs s.e.sendCq).pendingRecvVirtualWcQue_)
    (hlog : s'.recvs = s.recvs) (hsends : AllTold cq.pendingSendVirtualWcQue_.items s'.sends) :
    Audited Received s' where
  homed := by
    rw [he]
    apply h.homed.updateCq v s.e.sendCq cq fun hne => absurd rfl hne
    rw [hrecv]
    exact h.homed.recvs s.e.sendCq
  sends := by
    have hcq : s'.e.cqs s'.e.sendCq = cq := by
      rw [he]
      exact cqs_updateCq s.e.sendCq
    rw [hcq]
    exact hsends
  recvs := by
    have hque : (s'.e.cqs s'.e.recvCq).pendingRecvVirtualWcQue_ =
        (s.e.cqs s.e.recvCq).pendingRecvVirtualWcQue_ := by
      rw [he]
      exact pendingRecv_updateCq hrecv s.e.recvCq
    rw [hque, hlog]
    exact h.recvs

theorem Audited.moveRecvs
    (he : s'.e = { s.e with vqp := v }.updateCq s.e.recvCq cq)
    (hsend : cq.pendingSendVirtualWcQue_ = (s.e.cqs s.e.recvCq).pendingSendVirtualWcQue_)
    (hlog : s'.sends = s.sends) (hrecvs : Received cq.pendingRecvVirtualWcQue_.items s'.recvs) :
    Audited Received s' where
  homed := by
    rw [he]
    refine h.homed.updateCq v s.e.recvCq cq ?_ fun hne => absurd rfl hne
    rw [hsend]
    exact h.homed.sends s.e.recvCq
  sends := by
    have hque : (s'.e.cqs s'.e.sendCq).pendingSendVirtualWcQue_ =
        (s.e.cqs s.e.sendCq).pendingSendVirtualWcQue_ := by
      rw [he]
      exact pendingSend_updateCq hsend s.e.sendCq
    rw [hque, hlog]
    exact h.sends
  recvs := by
    have hcq : s'.e.cqs s'.e.recvCq = cq := by
      rw [he]
      exact cqs_updateCq s.e.recvCq
    rw [hcq]
    exact hrecvs

theorem Audited.postSend {wr : IbvSendWr} {extra : Bool}
    (hnew : wr.wr_id ∉ wrIds (s.e.cqs s.e.sendCq).pendingSendVirtualWcQue_)
    (hsend : cq.pendingSendVirtualWcQue_ =
      (s.e.cqs s.e.sendCq).pendingSendVirtualWcQue_.push_back (.fresh wr.wr_id qpNum n extra))
    (hrecv : cq.pendingRecvVirtualWcQue_ = (s.e.cqs s.e.sendCq).pendingRecvVirtualWcQue_) :
    Audited Received (s.note (.postSend wr) ({ s.e with vqp := v }.updateCq s.e.sendCq cq)) := by
  refine h.moveSends (note_e ..) hrecv rfl ?_
  rw [hsend]
  exact h.sends.push hnew qpNum n extra

/-- The send that a completion belongs to is told its status. -/
theorem Audited.sendCompletion (hs : s.e.vqp.Sending)
    (hq : s.e.vqp.qp? k = some q) {x : SendWqe} {xs : List SendWqe}
    (hout : q.sq.outstanding = x :: xs) {wc pwc : IbvWc} (hstatus : pwc.status = wc.status)
    (hsend : cq.pendingSendVirtualWcQue_.items =
      (s.e.cqs s.e.sendCq).pendingSendVirtualWcQue_.items.map
        fun u => if u.wr_id = x.virtualWrId then u.charge pwc else u)
    (hrecv : cq.pendingRecvVirtualWcQue_ = (s.e.cqs s.e.sendCq).pendingRecvVirtualWcQue_) :
    Audited Received (s.note (.sendCompletion k wc)
      ({ s.e with vqp := v }.updateCq s.e.sendCq cq)) := by
  rcases note_send hs hq hout wc ({ s.e with vqp := v }.updateCq s.e.sendCq cq) with
    ⟨hrecvs, hsends⟩
  apply h.moveSends (note_e ..) hrecv hrecvs
  rw [hsends, ← hstatus]
  exact h.sends.charge hsend

end

variable {ps pr : List VirtualWc} {past : List Op} {c : ℕ}

theorem Audited.poll (h : Audited Received s) {c numEntries : ℕ}
    (hrest : ∀ {ws ws' : List VirtualWc} {logs : ℕ → List IbvWcStatus},
      Received (ws ++ ws') logs → Received ws' logs)
    (hsend : (s.e.cqs c).pendingSendVirtualWcQue_.items =
      ps ++ cq.pendingSendVirtualWcQue_.items) (hrecv : (s.e.cqs c).pendingRecvVirtualWcQue_.items =
      pr ++ cq.pendingRecvVirtualWcQue_.items) :
    Audited Received (s.note (.pollVirtualCq c numEntries) (s.e.updateCq c cq)) where
  homed := by
    apply h.homed.updateCq s.e.vqp c cq
    · intro hc
      rw [h.homed.sends c hc] at hsend
      exact (List.append_eq_nil_iff.mp hsend.symm).2
    · intro hc
      rw [h.homed.recvs c hc] at hrecv
      exact (List.append_eq_nil_iff.mp hrecv.symm).2
  sends := by
    have hold := h.sends
    intro w hw
    by_cases hc : s.e.sendCq = c
    · simp only [note, updateCq, hc, Function.update_self] at hw
      apply hold w
      rw [hc, hsend]
      exact List.mem_append_right ps hw
    · simp only [note, updateCq, Function.update_of_ne hc] at hw
      exact hold w hw
  recvs := by
    have hold := h.recvs
    by_cases hc : s.e.recvCq = c
    · simp only [note, updateCq, hc, Function.update_self]
      rw [hc, hrecv] at hold
      exact hrest hold
    · simp only [note, updateCq, Function.update_of_ne hc]
      exact hold

/-! ### One step -/

variable {op : Op}

theorem step_ok {e' : Endpoint} (h : s.e.step op = .ok e') : s.step op = .ok (s.note op e') := by
  simp only [step, h, Except.map]

/-- In SPRAY mode the receives are told their statuses like the sends. -/
structure SprayAudit (s : Audit) : Prop where
  accounts : Accounts s.e
  audited : Audited AllTold s

theorem SprayAudit.step_sendCompletion (h : SprayAudit s) (hk : (s.e.vqp.qp? k).isSome)
    (wc : IbvWc) : ∃ s', s.step (.sendCompletion k wc) = .ok s' ∧ SprayAudit s' := by
  rcases Option.isSome_iff_exists.mp hk with ⟨q, hq⟩
  cases hout : q.sq.outstanding with
  | nil =>
    refine ⟨_, step_ok (Endpoint.sendCompletion_of_empty hq hout wc), ?_⟩
    rw [note_send_none hq hout]
    exact h
  | cons x xs =>
    rcases h.accounts.sendCompletion hq hout wc with
      ⟨_, _, v, w, cq, pwc, hok, _, hacc, _, _, _, _, _, _, _, _, hitems, hitems', hstatus⟩
    refine ⟨_, step_ok hok, ?_,
      h.audited.sendCompletion h.accounts.sending hq hout hstatus hitems hitems'⟩
    rw [note_e]
    exact hacc

theorem SprayAudit.step_recvCompletion (h : SprayAudit s) (hk : (s.e.vqp.qp? k).isSome)
    (withImm : Bool) (wc : IbvWc) :
    ∃ s', s.step (.recvCompletion k withImm wc) = .ok s' ∧ SprayAudit s' := by
  rcases Option.isSome_iff_exists.mp hk with ⟨q, hq⟩
  cases hout : q.rq.outstanding with
  | nil =>
    refine ⟨_, step_ok (Endpoint.recvCompletion_of_empty hq hout withImm wc), ?_⟩
    rw [note_recv_none hq hout]
    exact h
  | cons x xs =>
    rcases h.accounts.recvCompletion hq hout withImm wc with
      ⟨v, w, cq, pwc, hok, hacc, _, _, hitems, hitems', hstatus⟩
    refine ⟨_, step_ok hok, ?_, ?_⟩
    · rw [note_e]
      exact hacc
    · rcases note_recv hq hout withImm wc ({ s.e with vqp := v }.updateCq s.e.recvCq cq) with
        ⟨hsends, hrecvs⟩
      apply h.audited.moveRecvs (note_e ..) hitems' hsends
      rw [hrecvs, ← hstatus]
      exact h.audited.recvs.charge hitems

theorem SprayAudit.step (h : SprayAudit s) (hop : Apart past s op) :
    ∃ s', s.step op = .ok s' ∧ SprayAudit s' := by
  cases op with
  | postSend wr =>
    rcases h.accounts.postSend hop.1.1 hop.1.2 hop.2 with
      ⟨_, _, v, cq, hok, hacc, _, _, _, _, _, _, hitems, hitems'⟩
    exact ⟨_, step_ok hok, hacc, h.audited.postSend hop.1.2 hitems hitems'⟩
  | postRecv wr =>
    rcases h.accounts.postRecv hop.1.1 hop.1.2 hop.2 with ⟨n, v, cq, hok, hacc, hitems', hitems⟩
    refine ⟨_, step_ok hok, hacc, ?_⟩
    refine h.audited.moveRecvs (note_e ..) hitems' rfl ?_
    rw [hitems]
    exact h.audited.recvs.push hop.1.2 _ n false
  | sendCompletion k wc => exact h.step_sendCompletion hop.1 wc
  | recvCompletion k withImm wc => exact h.step_recvCompletion hop.1 withImm wc
  | pollVirtualCq c numEntries =>
    rcases h.accounts.pollVirtualCq c numEntries with ⟨wcs, cq, ps, pr, hpoll, hacc, hpolled⟩
    have hok : s.e.step (.pollVirtualCq c numEntries) = .ok (s.e.updateCq c cq) := by
      simp only [Endpoint.step, hpoll, Except.map]
    refine ⟨_, step_ok hok, hacc, h.audited.poll ?_ hpolled.sends hpolled.recvs⟩
    intro ws ws' logs hall w hw
    exact hall w (List.mem_append_right ws hw)

/-- In DQPLB mode receives are only counted. -/
structure DqplbAudit (s : Audit) : Prop where
  accounts : DqplbAccounts s.e
  audited : Audited (fun items _ => ∀ w ∈ items, w.wc.status = .IBV_WC_SUCCESS) s

theorem DqplbAudit.step_sendCompletion (h : DqplbAudit s) (hk : (s.e.vqp.qp? k).isSome)
    (wc : IbvWc) : ∃ s', s.step (.sendCompletion k wc) = .ok s' ∧ DqplbAudit s' := by
  rcases Option.isSome_iff_exists.mp hk with ⟨q, hq⟩
  cases hout : q.sq.outstanding with
  | nil =>
    refine ⟨_, step_ok (Endpoint.sendCompletion_of_empty hq hout wc), ?_⟩
    rw [note_send_none hq hout]
    exact h
  | cons x xs =>
    rcases h.accounts.sendCompletion hq hout wc with ⟨v, cq, pwc, hok, hacc, hitems, hitems', hstatus⟩
    refine ⟨_, step_ok hok, ?_,
      h.audited.sendCompletion h.accounts.sending hq hout hstatus hitems hitems'⟩
    rw [note_e]
    exact hacc

theorem DqplbAudit.step_recvCompletion (h : DqplbAudit s) (hk : (s.e.vqp.qp? k).isSome)
    (withImm : Bool) (wc : IbvWc) :
    ∃ s', s.step (.recvCompletion k withImm wc) = .ok s' ∧ DqplbAudit s' := by
  rcases Option.isSome_iff_exists.mp hk with ⟨q, hq⟩
  cases hout : q.rq.outstanding with
  | nil =>
    refine ⟨_, step_ok (Endpoint.recvCompletion_of_empty hq hout withImm wc), ?_⟩
    rw [note_recv_none hq hout]
    exact h
  | cons x xs =>
    rcases h.accounts.recvCompletion hq hout withImm wc with ⟨v, n, hok, hacc⟩
    have hsend : ((s.e.cqs s.e.recvCq).processNotifyCount n).pendingSendVirtualWcQue_ =
        (s.e.cqs s.e.recvCq).pendingSendVirtualWcQue_ := rfl
    refine ⟨_, step_ok hok, ?_, h.audited.moveRecvs (note_e ..) hsend (note_recv hq hout ..).1 ?_⟩
    · rw [note_e]
      exact hacc
    · have hwcs := IbvVirtualCq.notifyRecvs_wc n
        (s.e.cqs s.e.recvCq).pendingRecvVirtualWcQue_.items
      intro w hw
      have hwc := List.mem_map_of_mem (f := VirtualWc.wc) hw
      change w.wc ∈ (IbvVirtualCq.notifyRecvs n _).map VirtualWc.wc at hwc
      rw [hwcs] at hwc
      rcases List.mem_map.mp hwc with ⟨u, hu, huw⟩
      rw [← huw]
      exact h.audited.recvs u hu

theorem DqplbAudit.step (h : DqplbAudit s) (hop : Apart past s op) :
    ∃ s', s.step op = .ok s' ∧ DqplbAudit s' := by
  cases op with
  | postSend wr =>
    rcases h.accounts.postSend hop.1.1 hop.1.2 hop.2 with ⟨n, v, cq, hok, hacc, hitems, hitems'⟩
    exact ⟨_, step_ok hok, hacc, h.audited.postSend hop.1.2 hitems hitems'⟩
  | postRecv wr =>
    rcases h.accounts.postRecv hop.1.1 hop.1.2 hop.2 with ⟨n, v, cq, hok, hacc, hitems', hitems⟩
    refine ⟨_, step_ok hok, hacc, ?_⟩
    refine h.audited.moveRecvs (note_e ..) hitems' rfl ?_
    rw [hitems]
    intro w hw
    rcases List.mem_append.mp hw with hw | hw
    · exact h.audited.recvs w hw
    · rw [List.mem_singleton.mp hw]
      rfl
  | sendCompletion k wc => exact h.step_sendCompletion hop.1 wc
  | recvCompletion k withImm wc => exact h.step_recvCompletion hop.1 withImm wc
  | pollVirtualCq c numEntries =>
    rcases h.accounts.pollVirtualCq c numEntries with ⟨_, wcs, cq, ps, pr, hpoll, hacc, hpolled⟩
    have hok : s.e.step (.pollVirtualCq c numEntries) = .ok (s.e.updateCq c cq) := by
      simp only [Endpoint.step, hpoll, Except.map]
    refine ⟨_, step_ok hok, hacc, h.audited.poll ?_ hpolled.sends hpolled.recvs⟩
    intro ws ws' logs hall w hw
    exact hall w (List.mem_append_right ws hw)

/-! ### What is reported -/

/-- The sends that a poll reports are on the CQ of the sends, so they are done and told. -/
theorem Audited.reported (h : Audited Received s) (hs : s.e.vqp.Sending)
    {received : ℕ → ℤ} {poll : IbvVirtualCq.PollState}
    (hpolled : Ledger.Polled (s.e.sentLeft c) received (s.e.cqs c) ps pr poll) :
    ∀ w ∈ ps, s.e.vqp.SendDone w.wr_id ∧ Told (s.sends w.wr_id) w.wc.status := by
  intro w hw
  have hsends := hpolled.sends
  have hmem : w ∈ (s.e.cqs c).pendingSendVirtualWcQue_.items := by
    rw [hsends]
    exact List.mem_append_left _ hw
  by_cases hc : c = s.e.sendCq
  · have hzero := hpolled.sendsDone w hw
    rw [sentLeft, if_pos hc] at hzero
    rw [hc] at hmem
    exact ⟨hs.sendDone hzero, h.sends w hmem⟩
  · rw [h.homed.sends c hc] at hmem
    cases hmem

theorem Audited.recvCq_of_mem (h : Audited Received s) {w : VirtualWc}
    (hw : w ∈ (s.e.cqs c).pendingRecvVirtualWcQue_.items) : c = s.e.recvCq := by
  by_contra hc
  rw [h.homed.recvs c hc] at hw
  cases hw

theorem SprayAudit.judged (h : SprayAudit s) (c numEntries : ℕ) : s.Judged c numEntries := by
  rcases h.accounts.pollVirtualCq c numEntries with ⟨wcs, cq, ps, pr, hpoll, _, hpolled⟩
  have hrecvs := hpolled.recvs
  have hscheme := h.accounts.receiving.scheme
  have hcq : (s.e.updateCq c cq).cqs c = cq := cqs_updateCq c
  refine ⟨wcs, s.e.updateCq c cq, ps, pr, hpoll, ?_, ?_, hpolled.wcs,
    h.audited.reported h.accounts.sending hpolled, ?_⟩
  · rw [hcq]
    exact hpolled.sends
  · rw [hcq]
    exact hrecvs
  · intro i w hi
    have hw := List.mem_of_getElem? hi
    have hmem : w ∈ (s.e.cqs c).pendingRecvVirtualWcQue_.items := by
      rw [hrecvs]
      exact List.mem_append_left _ hw
    have hc := h.audited.recvCq_of_mem hmem
    have hzero := hpolled.recvsDone w hw
    rw [receivedLeft, if_pos hc] at hzero
    rw [hc] at hmem
    have htold := h.audited.recvs w hmem
    simp only [recvLog, hscheme]
    constructor
    · exact fun _ => h.accounts.receiving.recvDone hzero
    · constructor
      · simp
      · exact fun _ => htold

theorem DqplbAudit.judged (h : DqplbAudit s) (c numEntries : ℕ) : s.Judged c numEntries := by
  rcases h.accounts.pollVirtualCq c numEntries with ⟨_, wcs, cq, ps, pr, hpoll, _, hpolled⟩
  have hrecvs := hpolled.recvs
  have hscheme := h.accounts.preposted.scheme
  have hcq : (s.e.updateCq c cq).cqs c = cq := cqs_updateCq c
  refine ⟨wcs, s.e.updateCq c cq, ps, pr, hpoll, ?_, ?_, hpolled.wcs,
    h.audited.reported h.accounts.sending hpolled, ?_⟩
  · rw [hcq]
    exact hpolled.sends
  · rw [hcq]
    exact hrecvs
  · intro i w hi
    have hmem : w ∈ (s.e.cqs c).pendingRecvVirtualWcQue_.items := by
      rw [hrecvs]
      exact List.mem_append_left _ (List.mem_of_getElem? hi)
    have hc := h.audited.recvCq_of_mem hmem
    rw [hc] at hmem
    have hsuccess := h.audited.recvs w hmem
    rw [hscheme, hsuccess, told_success_iff]
    constructor
    · exact fun hspray => nomatch hspray
    · exact ⟨fun hall _ => hall, fun hall => hall rfl⟩

/-- In every run, sends, and receives in SPRAY mode, are reported with the first failure among their
completions; a receive in DQPLB mode exactly when there is none. -/
theorem judged_of_apart {qpNums : List ℕ} {notifyQpNum : ℕ} (hne : qpNums ≠ [])
    (hnodup : (notifyQpNum :: qpNums).Nodup) (maxMsgCntPerQp : ℤ) {maxMsgSize : ℤ}
    (hmax : 1 ≤ maxMsgSize) (scheme : LoadBalancingScheme) (sendCq recvCq : ℕ) (ops : List Op)
    (hadm : Admissible step Apart []
      { e := create qpNums notifyQpNum maxMsgCntPerQp maxMsgSize scheme sendCq recvCq } ops)
    (c numEntries : ℕ) :
    ∃ s, run step
        { e := create qpNums notifyQpNum maxMsgCntPerQp maxMsgSize scheme sendCq recvCq } ops =
          .ok s ∧ s.Judged c numEntries := by
  have hhome : Homed (create qpNums notifyQpNum maxMsgCntPerQp maxMsgSize scheme sendCq recvCq) :=
    ⟨fun _ _ => rfl, fun _ _ => rfl⟩
  cases scheme with
  | SPRAY =>
    rcases run_invariant (fun _ => SprayAudit) (fun _ s op h hop => h.step hop) ops
      ⟨accounts_create hne hnodup maxMsgCntPerQp hmax sendCq recvCq,
        hhome, by simp [AllTold, create], by simp [AllTold, create]⟩ hadm with ⟨s, hrun, h⟩
    exact ⟨s, hrun, h.judged c numEntries⟩
  | DQPLB =>
    rcases run_invariant (fun _ => DqplbAudit) (fun _ s op h hop => h.step hop) ops
      ⟨dqplbAccounts_create hne hnodup maxMsgCntPerQp hmax sendCq recvCq,
        hhome, by simp [AllTold, create], by simp [create]⟩ hadm with ⟨s, hrun, h⟩
    exact ⟨s, hrun, h.judged c numEntries⟩

/-- A send of two segments on a shared CQ, one of which fails. -/
theorem judged_of_apart_failed :
    ∃ s, run step { e := create [10, 11] 12 4 100 .SPRAY 0 0 }
        [.postRecv ⟨2, none, 0⟩, .postSend ⟨1, some ⟨0, 150, 0⟩, 1, .IBV_WR_RDMA_WRITE, 2, 0, 0, 0⟩,
          .sendCompletion (some 1) { status := .IBV_WC_REM_ACCESS_ERR },
          .recvCompletion none true {},
          .sendCompletion (some 0) { status := .IBV_WC_WR_FLUSH_ERR }] = .ok s ∧
      s.Judged 0 8 :=
  judged_of_apart (by decide) (by decide) 4 (by decide) .SPRAY 0 0 _ (by decide) 0 8

/-- The error of a receive in DQPLB mode is lost: it is reported as a success. -/
theorem not_told_of_apart :
    ¬ ∀ (qpNums : List ℕ) (notifyQpNum : ℕ) (maxMsgCntPerQp maxMsgSize : ℤ)
      (scheme : LoadBalancingScheme) (sendCq recvCq : ℕ) (ops : List Op), qpNums ≠ [] →
      (notifyQpNum :: qpNums).Nodup → 1 ≤ maxMsgSize →
      Admissible step Apart []
        { e := create qpNums notifyQpNum maxMsgCntPerQp maxMsgSize scheme sendCq recvCq } ops →
      ∀ s c numEntries wcs e' pr, run step
          { e := create qpNums notifyQpNum maxMsgCntPerQp maxMsgSize scheme sendCq recvCq } ops =
            .ok s → s.e.pollVirtualCq c numEntries = .ok (wcs, e') →
        (s.e.cqs c).pendingRecvVirtualWcQue_.items =
          pr ++ (e'.cqs c).pendingRecvVirtualWcQue_.items →
        ∀ i w, pr[i]? = some w → Told (s.recvLog i w.wr_id) w.wc.status := by
  intro hall
  have htold := hall [10, 11] 12 1 100 .DQPLB 0 0 [.postRecv ⟨7, some ⟨0, 50, 0⟩, 1⟩,
    .recvCompletion (some 0) true { status := .IBV_WC_REM_ACCESS_ERR, imm_data := 1 <<< 31 }]
    (by decide) (by decide) (by decide) (by decide) _ 0 8 _ _ [_] rfl rfl rfl 0 _ rfl
  exact absurd (htold.1.mp rfl .IBV_WC_REM_ACCESS_ERR List.mem_cons_self) (by decide)

end Audit
end TorchComms.Ibverbx
