import TorchComms.Foundation.StableDeque
import TorchComms.Ibverbx.VirtualQp

/-! # `IbvVirtualCq`: the completions of virtual work requests

Two deques of virtual completions, and a map from work request ids to pointers into them.
-/
namespace TorchComms.Ibverbx

open Foundation

structure VirtualWc where
  wc : IbvWc
  expectedMsgCnt : ℤ
  remainingMsgCnt : ℤ
  sendExtraNotifyImm : Bool := false
deriving DecidableEq

namespace VirtualWc

def wr_id (w : VirtualWc) : ℕ := w.wc.wr_id

/-- A virtual completion of which nothing has completed yet. -/
def fresh (wrId virtualQpNum : ℕ) (expectedMsgCnt : ℤ) (sendExtraNotifyImm : Bool) : VirtualWc where
  wc := { wr_id := wrId, qp_num := virtualQpNum }
  expectedMsgCnt := expectedMsgCnt
  remainingMsgCnt := expectedMsgCnt
  sendExtraNotifyImm := sendExtraNotifyImm

/-- `updateVirtualWcFromPhysicalWc`. -/
def update (w : VirtualWc) (physicalWc : IbvWc) : VirtualWc :=
  { w with wc := { w.wc with
    status := if physicalWc.status ≠ .IBV_WC_SUCCESS ∧ w.wc.status = .IBV_WC_SUCCESS then
      physicalWc.status else w.wc.status
    opcode := physicalWc.opcode
    vendor_err := physicalWc.vendor_err
    src_qp := physicalWc.src_qp
    byte_len := u32 (w.wc.byte_len + physicalWc.byte_len)
    imm_data := physicalWc.imm_data
    wc_flags := physicalWc.wc_flags
    pkey_index := physicalWc.pkey_index
    slid := physicalWc.slid
    sl := physicalWc.sl
    dlid_path_bits := physicalWc.dlid_path_bits } }

/-- One physical completion is charged to `w`. -/
def charge (w : VirtualWc) (physicalWc : IbvWc) : VirtualWc :=
  { w with remainingMsgCnt := w.remainingMsgCnt - 1 }.update physicalWc

@[simp] theorem charge_wr_id (w : VirtualWc) (physicalWc : IbvWc) :
    (w.charge physicalWc).wr_id = w.wr_id := rfl

@[simp] theorem charge_remainingMsgCnt (w : VirtualWc) (physicalWc : IbvWc) :
    (w.charge physicalWc).remainingMsgCnt = w.remainingMsgCnt - 1 := rfl

@[simp] theorem charge_sendExtraNotifyImm (w : VirtualWc) (physicalWc : IbvWc) :
    (w.charge physicalWc).sendExtraNotifyImm = w.sendExtraNotifyImm := rfl

end VirtualWc

/-- A pointer to a virtual completion, into the send queue or the receive queue. -/
inductive WcPtr where
  | send (i : ℕ)
  | recv (i : ℕ)
deriving DecidableEq, Repr

structure IbvVirtualCq where
  pendingSendVirtualWcQue_ : StableDeque VirtualWc := {}
  pendingRecvVirtualWcQue_ : StableDeque VirtualWc := {}
  virtualWrIdToVirtualWc_ : ℕ → Option (Option WcPtr) := fun _ => none

namespace IbvVirtualCq

def processRequest (cq : IbvVirtualCq) : VirtualCqRequest → IbvVirtualCq
  | .SEND virtualQpNum expectedMsgCnt sendWr sendExtraNotifyImm =>
    if sendWr.signaled ∨ sendWr.opcode = .IBV_WR_RDMA_WRITE_WITH_IMM then
      let que := cq.pendingSendVirtualWcQue_.push_back
        (.fresh sendWr.wr_id virtualQpNum expectedMsgCnt sendExtraNotifyImm)
      { cq with
        pendingSendVirtualWcQue_ := que
        virtualWrIdToVirtualWc_ := Function.update cq.virtualWrIdToVirtualWc_ sendWr.wr_id
          (some (some (.send que.back))) }
    else
      { cq with
        virtualWrIdToVirtualWc_ := Function.update cq.virtualWrIdToVirtualWc_ sendWr.wr_id
          (some none) }
  | .RECV virtualQpNum expectedMsgCnt recvWr =>
    let que := cq.pendingRecvVirtualWcQue_.push_back
      (.fresh recvWr.wr_id virtualQpNum expectedMsgCnt false)
    { cq with
      pendingRecvVirtualWcQue_ := que
      virtualWrIdToVirtualWc_ := Function.update cq.virtualWrIdToVirtualWc_ recvWr.wr_id
        (some (some (.recv que.back))) }

def deref (cq : IbvVirtualCq) : WcPtr → Option VirtualWc
  | .send i => cq.pendingSendVirtualWcQue_.get? i
  | .recv i => cq.pendingRecvVirtualWcQue_.get? i

def modify (cq : IbvVirtualCq) (f : VirtualWc → VirtualWc) : WcPtr → IbvVirtualCq
  | .send i => { cq with pendingSendVirtualWcQue_ := cq.pendingSendVirtualWcQue_.modify i f }
  | .recv i => { cq with pendingRecvVirtualWcQue_ := cq.pendingRecvVirtualWcQue_.modify i f }

/-- Charge a physical completion to the virtual completion the map names; the result is that
virtual completion. A null or dangling pointer is undefined behaviour. -/
def charge (cq : IbvVirtualCq) (virtualWrId : ℕ) (physicalWc : IbvWc) :
    Except Fault (VirtualWc × IbvVirtualCq) :=
  match cq.virtualWrIdToVirtualWc_ virtualWrId with
  | none => .error .outOfRange
  | some none => .error .undefined
  | some (some ptr) =>
    match cq.deref ptr with
    | none => .error .undefined
    | some w => .ok (w.charge physicalWc, cq.modify (fun w => w.charge physicalWc) ptr)

/-- DQPLB mode: the first `notifyCount` receives that are not complete yet are complete now. -/
def notifyRecvs (n : ℤ) : List VirtualWc → List VirtualWc
  | [] => []
  | w :: ws =>
    if 0 < n then
      if w.remainingMsgCnt ≠ 0 then { w with remainingMsgCnt := 0 } :: notifyRecvs (n - 1) ws
      else w :: notifyRecvs n ws
    else w :: ws

def processNotifyCount (cq : IbvVirtualCq) (notifyCount : ℤ) : IbvVirtualCq :=
  { cq with pendingRecvVirtualWcQue_ := { cq.pendingRecvVirtualWcQue_ with
    items := notifyRecvs notifyCount cq.pendingRecvVirtualWcQue_.items } }

/-! ### Polling -/

/-- A queue, the map and the completions reported so far, and whether the front of the queue
was found missing or incomplete. -/
structure PollFront where
  que : StableDeque VirtualWc
  map : ℕ → Option (Option WcPtr)
  wcs : List IbvWc
  complete : Bool

/-- One step on a queue: report its front, or find that there is nothing to report. -/
def pollFront (s : PollFront) : PollFront :=
  if s.complete then s
  else
    match s.que.items with
    | [] => { s with complete := true }
    | w :: _ =>
      if 0 < w.remainingMsgCnt then { s with complete := true }
      else
        { s with
          map := Function.update s.map w.wr_id none
          wcs := s.wcs ++ [w.wc]
          que := s.que.pop_front }

structure PollState where
  cq : IbvVirtualCq
  wcs : List IbvWc := []
  virtualSendCqPollComplete : Bool := false
  virtualRecvCqPollComplete : Bool := false

def pollSend (s : PollState) : PollState :=
  let r := pollFront ⟨s.cq.pendingSendVirtualWcQue_, s.cq.virtualWrIdToVirtualWc_, s.wcs,
    s.virtualSendCqPollComplete⟩
  { s with
    cq := { s.cq with pendingSendVirtualWcQue_ := r.que, virtualWrIdToVirtualWc_ := r.map }
    wcs := r.wcs
    virtualSendCqPollComplete := r.complete }

def pollRecv (s : PollState) : PollState :=
  let r := pollFront ⟨s.cq.pendingRecvVirtualWcQue_, s.cq.virtualWrIdToVirtualWc_, s.wcs,
    s.virtualRecvCqPollComplete⟩
  { s with
    cq := { s.cq with pendingRecvVirtualWcQue_ := r.que, virtualWrIdToVirtualWc_ := r.map }
    wcs := r.wcs
    virtualRecvCqPollComplete := r.complete }

def pollRound (numEntries : ℕ) (s : PollState) : Except Fault (Bool × PollState) :=
  if s.wcs.length < numEntries ∧
      (!s.virtualSendCqPollComplete || !s.virtualRecvCqPollComplete) then
    .ok (true, pollRecv (pollSend s))
  else .ok (false, s)

/-- Every round pops a completion or finds a queue exhausted. -/
def pollRounds (cq : IbvVirtualCq) : ℕ :=
  cq.pendingSendVirtualWcQue_.items.length + cq.pendingRecvVirtualWcQue_.items.length + 3

def loopPollVirtualCqUntil (cq : IbvVirtualCq) (numEntries : ℕ) :
    Except Fault (List IbvWc × IbvVirtualCq) :=
  (loop .diverged (pollRound numEntries) cq.pollRounds { cq := cq }).map fun s => (s.wcs, s.cq)

theorem pollFront_cases (s : PollFront) :
    (pollFront s).que = s.que ∧ (pollFront s).map = s.map ∧ (pollFront s).wcs = s.wcs ∨
      ∃ w, s.que.items = w :: (pollFront s).que.items ∧ ¬ 0 < w.remainingMsgCnt ∧
        (pollFront s).que = s.que.pop_front ∧
        (pollFront s).map = Function.update s.map w.wr_id none ∧
        (pollFront s).wcs = s.wcs ++ [w.wc] := by
  cases hdone : s.complete with
  | true => simp [pollFront, hdone]
  | false =>
    cases hitems : s.que.items with
    | nil => simp [pollFront, hdone, hitems]
    | cons w ws =>
      by_cases hpos : 0 < w.remainingMsgCnt
      · simp [pollFront, hdone, hitems, hpos]
      · right
        refine ⟨w, ?_, hpos, ?_⟩
        · simp [pollFront, hdone, hitems, hpos, StableDeque.pop_front]
        · simp [pollFront, hdone, hitems, hpos]

/-- What is left of polling a queue: its completions, and one step to find it exhausted. -/
def pollMeasure (que : StableDeque VirtualWc) (complete : Bool) : ℕ :=
  que.items.length + if complete then 0 else 1

theorem pollFront_measure (s : PollFront) :
    pollMeasure (pollFront s).que (pollFront s).complete ≤ pollMeasure s.que s.complete ∧
      (s.complete = false →
        pollMeasure (pollFront s).que (pollFront s).complete < pollMeasure s.que s.complete) := by
  cases hdone : s.complete with
  | true => simp [pollFront, hdone]
  | false =>
    cases hitems : s.que.items with
    | nil => simp [pollFront, hdone, hitems, pollMeasure]
    | cons w ws =>
      by_cases hpos : 0 < w.remainingMsgCnt
      · simp [pollFront, hdone, hitems, hpos, pollMeasure]
      · have htail : s.que.pop_front.items = ws := by
          rw [StableDeque.pop_front, hitems, List.tail_cons]
        simp [pollFront, hdone, hitems, hpos, pollMeasure, htail]

/-- The front of the queue, if any, still waits for parts. -/
def Waits (que : StableDeque VirtualWc) : Prop := ∀ w ∈ que.items.head?, 0 < w.remainingMsgCnt

/-- The flags of a polling run say that there is nothing to report. -/
structure Stalled (s : PollState) : Prop where
  sends : s.virtualSendCqPollComplete → Waits s.cq.pendingSendVirtualWcQue_
  recvs : s.virtualRecvCqPollComplete → Waits s.cq.pendingRecvVirtualWcQue_

theorem pollFront_stalled {s : PollFront} (h : s.complete → Waits s.que)
    (hdone : (pollFront s).complete) : Waits (pollFront s).que := by
  cases hcomplete : s.complete with
  | true =>
    rw [pollFront, if_pos hcomplete]
    exact h hcomplete
  | false =>
    cases hitems : s.que.items with
    | nil => simp [pollFront, hcomplete, hitems, Waits]
    | cons w ws =>
      by_cases hpos : 0 < w.remainingMsgCnt
      · simp [pollFront, hcomplete, hitems, hpos, Waits]
      · simp [pollFront, hcomplete, hitems, hpos] at hdone

variable {s : PollState}

theorem Stalled.pollSend (h : Stalled s) : Stalled (pollSend s) :=
  ⟨pollFront_stalled h.sends, h.recvs⟩

theorem Stalled.pollRecv (h : Stalled s) : Stalled (pollRecv s) :=
  ⟨h.sends, pollFront_stalled h.recvs⟩

/-- The rule of polling: what each round with room left keeps holds at the end, and there is an end:
the room is used up, or both queues have nothing to report. -/
theorem poll_rounds (cq : IbvVirtualCq) (Inv : PollState → Prop) (numEntries : ℕ)
    (hround : ∀ s, s.wcs.length < numEntries → Inv s → Inv (pollRecv (pollSend s)))
    (hinit : Inv { cq := cq }) :
    ∃ s, cq.loopPollVirtualCqUntil numEntries = .ok (s.wcs, s.cq) ∧ Inv s ∧
      (numEntries ≤ s.wcs.length ∨
        Waits s.cq.pendingSendVirtualWcQue_ ∧ Waits s.cq.pendingRecvVirtualWcQue_) := by
  have hbody : ∀ s, Inv s ∧ Stalled s → ∃ c s', pollRound numEntries s = .ok (c, s') ∧
      (c = true → (Inv s' ∧ Stalled s') ∧
        pollMeasure s'.cq.pendingSendVirtualWcQue_ s'.virtualSendCqPollComplete +
            pollMeasure s'.cq.pendingRecvVirtualWcQue_ s'.virtualRecvCqPollComplete <
          pollMeasure s.cq.pendingSendVirtualWcQue_ s.virtualSendCqPollComplete +
            pollMeasure s.cq.pendingRecvVirtualWcQue_ s.virtualRecvCqPollComplete) ∧
      (c = false → Inv s' ∧ (numEntries ≤ s'.wcs.length ∨
        Waits s'.cq.pendingSendVirtualWcQue_ ∧ Waits s'.cq.pendingRecvVirtualWcQue_)) := by
    rintro s ⟨hs, hstalled⟩
    rw [pollRound]
    by_cases hgo : s.wcs.length < numEntries ∧
        (!s.virtualSendCqPollComplete || !s.virtualRecvCqPollComplete)
    · rw [if_pos hgo]
      refine ⟨true, _, rfl, fun _ => ⟨⟨hround s hgo.1 hs, hstalled.pollSend.pollRecv⟩, ?_⟩, by simp⟩
      rcases pollFront_measure ⟨s.cq.pendingSendVirtualWcQue_, s.cq.virtualWrIdToVirtualWc_, s.wcs,
        s.virtualSendCqPollComplete⟩ with ⟨hle, hlt⟩
      rcases pollFront_measure ⟨s.cq.pendingRecvVirtualWcQue_,
        (pollSend s).cq.virtualWrIdToVirtualWc_, (pollSend s).wcs, s.virtualRecvCqPollComplete⟩ with
        ⟨hle', hlt'⟩
      simp only [Bool.or_eq_true, Bool.not_eq_true'] at hgo
      rcases hgo.2 with hfalse | hfalse
      · exact Nat.add_lt_add_of_lt_of_le (hlt hfalse) hle'
      · exact Nat.add_lt_add_of_le_of_lt hle (hlt' hfalse)
    · rw [if_neg hgo]
      refine ⟨false, s, rfl, by simp, fun _ => ⟨hs, ?_⟩⟩
      rcases Classical.not_and_iff_not_or_not.mp hgo with hfull | hdone
      · exact Or.inl (Nat.le_of_not_lt hfull)
      · simp only [Bool.or_eq_true, Bool.not_eq_true', not_or, Bool.not_eq_false] at hdone
        exact Or.inr ⟨hstalled.sends hdone.1, hstalled.recvs hdone.2⟩
  have hstart : Stalled { cq := cq } := by constructor <;> simp
  have hloop : ∃ s', loop .diverged (pollRound numEntries) cq.pollRounds { cq := cq } = .ok s' ∧
      Inv s' ∧ (numEntries ≤ s'.wcs.length ∨
        Waits s'.cq.pendingSendVirtualWcQue_ ∧ Waits s'.cq.pendingRecvVirtualWcQue_) := by
    apply loop_invariant _ _ _ hbody ⟨hinit, hstart⟩
    simp only [pollMeasure, pollRounds, Bool.false_eq_true, if_false]
    omega
  rcases hloop with ⟨s', hok, hs'⟩
  refine ⟨s', ?_, hs'⟩
  simp only [loopPollVirtualCqUntil, hok, Except.map]

theorem poll_invariant (cq : IbvVirtualCq) (Inv : PollState → Prop)
    (hsend : ∀ s, Inv s → Inv (pollSend s)) (hrecv : ∀ s, Inv s → Inv (pollRecv s))
    (hinit : Inv { cq := cq }) (numEntries : ℕ) :
    ∃ s, cq.loopPollVirtualCqUntil numEntries = .ok (s.wcs, s.cq) ∧ Inv s ∧
      (numEntries ≤ s.wcs.length ∨
        Waits s.cq.pendingSendVirtualWcQue_ ∧ Waits s.cq.pendingRecvVirtualWcQue_) :=
  poll_rounds cq Inv numEntries (fun s _ hs => hrecv _ (hsend s hs)) hinit

end IbvVirtualCq
end TorchComms.Ibverbx
