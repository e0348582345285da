import TorchComms.Foundation.Loop
import TorchComms.Ibverbx.DqplbSeqTracker
import TorchComms.Ibverbx.Verbs

/-! # `IbvVirtualQp`: one queue pair made of many

Work requests are cut into segments of at most `maxMsgSize_` bytes and spread over the data
QPs. A data QP is named by its index, the notify QP by `none`. Posts on physical QPs succeed, and
the 64-bit counter of their ids does not wrap.
-/
namespace TorchComms.Ibverbx

open Foundation

inductive LoadBalancingScheme where
  | SPRAY
  | DQPLB
deriving DecidableEq, Repr

structure VirtualSendWr where
  wr : IbvSendWr
  expectedMsgCnt : ℤ
  remainingMsgCnt : ℤ
  offset : ℤ := 0
  sendExtraNotifyImm : Bool
deriving DecidableEq

/-- The constructor, with its copy of the scatter-gather list. -/
def VirtualSendWr.ofWr (wr : IbvSendWr) (expectedMsgCnt : ℤ) (sendExtraNotifyImm : Bool) :
    VirtualSendWr where
  wr := if wr.sg_list.isSome ∧ 0 < wr.num_sge then wr else { wr with sg_list := none, num_sge := 0 }
  expectedMsgCnt := expectedMsgCnt
  remainingMsgCnt := expectedMsgCnt
  sendExtraNotifyImm := sendExtraNotifyImm

structure VirtualRecvWr where
  wr : IbvRecvWr
  expectedMsgCnt : ℤ
  remainingMsgCnt : ℤ
  offset : ℤ := 0
deriving DecidableEq

def VirtualRecvWr.ofWr (wr : IbvRecvWr) (expectedMsgCnt : ℤ) : VirtualRecvWr where
  wr := if wr.sg_list.isSome ∧ 0 < wr.num_sge then wr else { wr with sg_list := none, num_sge := 0 }
  expectedMsgCnt := expectedMsgCnt
  remainingMsgCnt := expectedMsgCnt

inductive RequestType where
  | SEND
  | RECV
  | SEND_NOTIFY
deriving DecidableEq, Repr

structure VirtualQpRequest where
  type : RequestType
  wrId : ℕ
  physicalQpNum : ℕ
  immData : ℕ := 0
deriving DecidableEq, Repr

structure VirtualQpResponse where
  virtualWrId : ℕ := 0
  useDqplb : Bool := false
  notifyCount : ℤ := 0
deriving DecidableEq, Repr

/-- What a post asks of the virtual CQ. -/
inductive VirtualCqRequest where
  | SEND (virtualQpNum : ℕ) (expectedMsgCnt : ℤ) (sendWr : IbvSendWr) (sendExtraNotifyImm : Bool)
  | RECV (virtualQpNum : ℕ) (expectedMsgCnt : ℤ) (recvWr : IbvRecvWr)
deriving DecidableEq, Repr

structure IbvVirtualQp where
  pendingSendVirtualWrQue_ : List VirtualSendWr := []
  pendingRecvVirtualWrQue_ : List VirtualRecvWr := []
  virtualQpNum_ : ℕ := 0
  physicalQps_ : List IbvQp
  qpNumToIdx_ : ℕ → Option ℕ
  nextSendPhysicalQpIdx_ : ℕ := 0
  maxMsgCntPerQp_ : ℤ
  maxMsgSize_ : ℤ
  nextPhysicalWrId_ : ℕ := 0
  loadBalancingScheme_ : LoadBalancingScheme
  pendingSendNotifyVirtualWrQue_ : List VirtualSendWr := []
  notifyQp_ : IbvQp
  dqplbSeqTracker : DqplbSeqTracker := {}
  dqplbReceiverInitialized_ : Bool := false

namespace IbvVirtualQp

/-- The constructor, on fresh physical QPs with the given numbers. -/
def create (qpNums : List ℕ) (notifyQpNum : ℕ) (maxMsgCntPerQp maxMsgSize : ℤ)
    (loadBalancingScheme : LoadBalancingScheme) : IbvVirtualQp where
  physicalQps_ := qpNums.map fun n => { qp_num := n }
  qpNumToIdx_ := fun n => (List.range qpNums.length).reverse.find? fun i => qpNums[i]? == some n
  maxMsgCntPerQp_ := maxMsgCntPerQp
  maxMsgSize_ := maxMsgSize
  loadBalancingScheme_ := loadBalancingScheme
  notifyQp_ := { qp_num := notifyQpNum }

/-- `physicalQps_.at(qpIdx)`, or the notify QP. -/
def qp? (v : IbvVirtualQp) : Option ℕ → Option IbvQp
  | none => some v.notifyQp_
  | some i => v.physicalQps_[i]?

def setQp (v : IbvVirtualQp) (qpIdx : Option ℕ) (q : IbvQp) : IbvVirtualQp :=
  match qpIdx with
  | none => { v with notifyQp_ := q }
  | some i => { v with physicalQps_ := v.physicalQps_.set i q }

/-- The comparison of a queue length with `maxMsgCntPerQp_`, which is unsigned. -/
def hasRoom (v : IbvVirtualQp) (n : ℕ) : Bool := decide (n < u64 v.maxMsgCntPerQp_)

/-! ### Sending -/

/-- The rounds of `findAvailableSendQp`: an index, if one was found, and the next index. -/
def scanSendQps (v : IbvVirtualQp) : ℕ → ℕ → Except Fault (Option ℕ × ℕ)
  | 0, next => .ok (none, next)
  | n + 1, next =>
    match v.physicalQps_[next]? with
    | none => .error .outOfRange
    | some q =>
      if v.hasRoom q.physicalSendWrStatus_.length then
        .ok (some next, (next + 1) % v.physicalQps_.length)
      else v.scanSendQps n ((next + 1) % v.physicalQps_.length)

def findAvailableSendQp (v : IbvVirtualQp) : Except Fault (Option ℕ × IbvVirtualQp) :=
  if v.maxMsgCntPerQp_ = -1 then
    if v.physicalQps_.length = 0 then .error .undefined
    else .ok (some v.nextSendPhysicalQpIdx_, { v with
      nextSendPhysicalQpIdx_ := (v.nextSendPhysicalQpIdx_ + 1) % v.physicalQps_.length })
  else
    (v.scanSendQps v.physicalQps_.length v.nextSendPhysicalQpIdx_).map fun r =>
      (r.1, { v with nextSendPhysicalQpIdx_ := r.2 })

/-- The physical work request for the next segment. -/
def updatePhysicalSendWrFromVirtualSendWr (v : IbvVirtualQp) (w : VirtualSendWr) :
    Except Fault (IbvSendWr × IbvVirtualQp) :=
  match w.wr.sg_list with
  | none => .error .undefined
  | some sg =>
    let lenToSend := min (i32 (u32 (sg.length - w.offset))) v.maxMsgSize_
    let base : IbvSendWr :=
      { wr_id := v.nextPhysicalWrId_
        sg_list := some ⟨u64 (sg.addr + w.offset), u32 lenToSend, sg.lkey⟩
        num_sge := 1
        opcode := .IBV_WR_RDMA_WRITE
        send_flags := 0
        imm_data := 0
        remote_addr := 0
        rkey := 0 }
    let remote_addr := u64 (w.wr.remote_addr + w.offset)
    let wr : IbvSendWr :=
      match w.wr.opcode with
      | .IBV_WR_RDMA_WRITE | .IBV_WR_RDMA_READ =>
        { base with
          opcode := w.wr.opcode
          send_flags := w.wr.send_flags
          remote_addr := remote_addr
          rkey := w.wr.rkey }
      | .IBV_WR_RDMA_WRITE_WITH_IMM =>
        { base with
          opcode := match v.loadBalancingScheme_ with
            | .SPRAY => .IBV_WR_RDMA_WRITE
            | .DQPLB => .IBV_WR_RDMA_WRITE_WITH_IMM
          send_flags := IBV_SEND_SIGNALED
          remote_addr := remote_addr
          rkey := w.wr.rkey }
      | .IBV_WR_SEND => { base with opcode := w.wr.opcode, send_flags := w.wr.send_flags }
      | _ => base
    let v := { v with nextPhysicalWrId_ := v.nextPhysicalWrId_ + 1 }
    if wr.opcode = .IBV_WR_RDMA_WRITE_WITH_IMM ∧ v.loadBalancingScheme_ = .DQPLB then
      let imm := v.dqplbSeqTracker.getSendImm w.remainingMsgCnt
      .ok ({ wr with imm_data := imm.1 }, { v with dqplbSeqTracker := imm.2 })
    else .ok (wr, v)

/-- The QP for the next segment. A QP index handed in is used up by a data transfer. -/
def selectSendQp (v : IbvVirtualQp) (qpIdx : Option ℕ) (w : VirtualSendWr) :
    Except Fault (Option ℕ × IbvVirtualQp × Option ℕ) :=
  match w.wr.opcode with
  | .IBV_WR_RDMA_WRITE | .IBV_WR_RDMA_WRITE_WITH_IMM | .IBV_WR_RDMA_READ =>
    match qpIdx with
    | none => v.findAvailableSendQp.map fun r => (r.1, r.2, none)
    | some i => .ok (some i, v, none)
  | _ =>
    match v.physicalQps_[0]? with
    | none => .error .outOfRange
    | some q => .ok (if v.hasRoom q.physicalSendWrStatus_.length then some 0 else none, v, qpIdx)

/-- Take one segment off `w`, the front of the queue before `rest`. -/
def advance (v : IbvVirtualQp) (w : VirtualSendWr) (rest : List VirtualSendWr) (length : ℕ) :
    IbvVirtualQp :=
  let w := { w with
    offset := i32 (u32 (w.offset + length)), remainingMsgCnt := w.remainingMsgCnt - 1 }
  if w.remainingMsgCnt = 0 then { v with pendingSendVirtualWrQue_ := rest }
  else if w.remainingMsgCnt = 1 ∧ w.sendExtraNotifyImm then
    { v with
      pendingSendVirtualWrQue_ := rest
      pendingSendNotifyVirtualWrQue_ := v.pendingSendNotifyVirtualWrQue_ ++ [w] }
  else { v with pendingSendVirtualWrQue_ := w :: rest }

/-- Post one segment on the data QP `i`. -/
def postSegment (v : IbvVirtualQp) (i : ℕ) (w : VirtualSendWr) (rest : List VirtualSendWr) :
    Except Fault IbvVirtualQp := do
  let (sendWr, v) ← v.updatePhysicalSendWrFromVirtualSendWr w
  match v.physicalQps_[i]?, sendWr.sg_list with
  | some q, some sg =>
    if w.remainingMsgCnt = INT_MIN then .error .undefined
    else .ok ((v.setQp (some i) (q.postSend sendWr w.wr.wr_id)).advance w rest sg.length)
  | _, _ => .error .outOfRange

/-- One round of `mapPendingSendQueToPhysicalQp`. -/
def mapPendingSendRound (s : IbvVirtualQp × Option ℕ) :
    Except Fault (Bool × IbvVirtualQp × Option ℕ) :=
  match s.1.pendingSendVirtualWrQue_ with
  | [] => .ok (false, s)
  | w :: rest => do
    let (availableQpIdx, v, qpIdx) ← s.1.selectSendQp s.2 w
    match availableQpIdx with
    | none => .ok (false, v, qpIdx)
    | some i => do
      let v ← v.postSegment i w rest
      .ok (true, v, qpIdx)

/-- More rounds than any loop over these work requests can take before a counter underflows. -/
def sendRounds (ws : List VirtualSendWr) : ℕ :=
  (ws.map fun w => (w.remainingMsgCnt - INT_MIN).toNat + 1).sum + 1

def mapPendingSendQueToPhysicalQp (v : IbvVirtualQp) (qpIdx : Option ℕ) :
    Except Fault IbvVirtualQp :=
  (loop .diverged mapPendingSendRound (sendRounds v.pendingSendVirtualWrQue_) (v, qpIdx)).map
    Prod.fst

def postSendNotifyImm (v : IbvVirtualQp) : Except Fault IbvVirtualQp :=
  match v.pendingSendNotifyVirtualWrQue_ with
  | [] => .error .undefined
  | w :: rest =>
    .ok { v with
      notifyQp_ := v.notifyQp_.postSend
        { wr_id := v.nextPhysicalWrId_
          sg_list := some ⟨0, 0, 0⟩
          num_sge := 0
          opcode := .IBV_WR_RDMA_WRITE_WITH_IMM
          send_flags := IBV_SEND_SIGNALED
          imm_data := w.wr.imm_data
          remote_addr := w.wr.remote_addr
          rkey := w.wr.rkey } w.wr.wr_id
      nextPhysicalWrId_ := v.nextPhysicalWrId_ + 1
      pendingSendNotifyVirtualWrQue_ := rest }

/-- The number of segments of a message, in the `uint32_t` arithmetic of the source. -/
def segmentCount (length : ℕ) (maxMsgSize : ℤ) : Except Fault ℤ :=
  if u32 maxMsgSize = 0 then .error .undefined
  else .ok (i32 (u32 (length + maxMsgSize - 1) / u32 maxMsgSize : ℕ))

def postSend (v : IbvVirtualQp) (sendWr : IbvSendWr) :
    Except Fault (VirtualCqRequest × IbvVirtualQp) :=
  if 1 < sendWr.num_sge then
    .error (.error ⟨EINVAL, "In IbvVirtualQp::postSend, num_sge > 1 is not supported"⟩)
  else if sendWr.opcode = .IBV_WR_SEND_WITH_IMM ∨ sendWr.opcode = .IBV_WR_ATOMIC_CMP_AND_SWP ∨
      sendWr.opcode = .IBV_WR_ATOMIC_FETCH_AND_ADD then
    .error (.error ⟨EINVAL, "In IbvVirtualQp::postSend, opcode IBV_WR_SEND_WITH_IMM, " ++
      "IBV_WR_ATOMIC_CMP_AND_SWP, IBV_WR_ATOMIC_FETCH_AND_ADD are not supported"⟩)
  else
    match sendWr.sg_list with
    | none => .error .undefined
    | some sg => do
      let sendExtraNotifyImm := decide (sendWr.opcode = .IBV_WR_RDMA_WRITE_WITH_IMM ∧
        v.loadBalancingScheme_ = .SPRAY)
      let segments ← segmentCount sg.length v.maxMsgSize_
      if sendExtraNotifyImm ∧ segments = INT_MAX then .error .undefined
      else
        let expectedMsgCnt := if sendExtraNotifyImm then segments + 1 else segments
        let v ← { v with pendingSendVirtualWrQue_ := v.pendingSendVirtualWrQue_ ++
          [VirtualSendWr.ofWr sendWr expectedMsgCnt sendExtraNotifyImm] }.mapPendingSendQueToPhysicalQp none
        .ok (.SEND v.virtualQpNum_ expectedMsgCnt sendWr sendExtraNotifyImm, v)

/-! ### Receiving -/

/-- The virtual id of the receives of DQPLB mode, `-1` as `uint64_t`. -/
def noVirtualWrId : ℕ := 2 ^ 64 - 1

/-- The physical receive of a notification. -/
def notifyRecvWr (wrId : ℕ) : IbvRecvWr := ⟨wrId, some ⟨0, 0, 0⟩, 0⟩

def findAvailableRecvQp (v : IbvVirtualQp) : Except Fault (Option ℕ) :=
  if v.maxMsgCntPerQp_ = -1 then .ok (some 0)
  else
    match v.physicalQps_[0]? with
    | none => .error .outOfRange
    | some q => .ok (if v.hasRoom q.physicalRecvWrStatus_.length then some 0 else none)

def postRecvNotifyImm (v : IbvVirtualQp) (qpIdx : Option ℕ) : Except Fault IbvVirtualQp :=
  match v.qp? qpIdx with
  | none => .error .outOfRange
  | some q =>
    match v.loadBalancingScheme_ with
    | .SPRAY =>
      match v.pendingRecvVirtualWrQue_ with
      | [] => .error .undefined
      | w :: rest =>
        .ok { v.setQp qpIdx (q.postRecv (notifyRecvWr v.nextPhysicalWrId_) w.wr.wr_id) with
          nextPhysicalWrId_ := v.nextPhysicalWrId_ + 1
          pendingRecvVirtualWrQue_ := rest }
    | .DQPLB =>
      .ok { v.setQp qpIdx (q.postRecv (notifyRecvWr v.nextPhysicalWrId_) noVirtualWrId) with
        nextPhysicalWrId_ := v.nextPhysicalWrId_ + 1 }

/-- Post one notification receive on the data QP `j`. -/
def prepostRecv (v : IbvVirtualQp) (j : ℕ) : IbvVirtualQp :=
  { v with
    physicalQps_ := v.physicalQps_.modify j fun q =>
      q.postRecv (notifyRecvWr v.nextPhysicalWrId_) noVirtualWrId
    nextPhysicalWrId_ := v.nextPhysicalWrId_ + 1 }

def initializeDqplbReceiver (v : IbvVirtualQp) : IbvVirtualQp :=
  { (List.range v.maxMsgCntPerQp_.toNat).foldl
      (fun v _ => (List.range v.physicalQps_.length).foldl prepostRecv v) v with
    dqplbReceiverInitialized_ := true }

/-- Post one segment of the receive `w`, the front of the queue before `rest`. -/
def postRecvSegment (v : IbvVirtualQp) (i : ℕ) (w : VirtualRecvWr) (rest : List VirtualRecvWr) :
    Except Fault IbvVirtualQp :=
  match v.physicalQps_[i]?, w.wr.sg_list with
  | some q, some sg =>
    let lenToRecv := min (i32 (u32 (sg.length - w.offset))) v.maxMsgSize_
    let recvWr : IbvRecvWr :=
      ⟨v.nextPhysicalWrId_, some ⟨u64 (sg.addr + w.offset), u32 lenToRecv, sg.lkey⟩, 1⟩
    if w.remainingMsgCnt = INT_MIN ∨ INT_MAX < w.offset + lenToRecv ∨
        w.offset + lenToRecv < INT_MIN then .error .undefined
    else
      let w := { w with
        offset := w.offset + lenToRecv, remainingMsgCnt := w.remainingMsgCnt - 1 }
      .ok { v.setQp (some i) (q.postRecv recvWr w.wr.wr_id) with
        nextPhysicalWrId_ := v.nextPhysicalWrId_ + 1
        pendingRecvVirtualWrQue_ := if w.remainingMsgCnt = 0 then rest else w :: rest }
  | none, _ => .error .outOfRange
  | some _, none => .error .undefined

/-- The QP for the next segment of a buffer: a slot freed on QP 0 is used without a check. -/
def selectRecvQp (v : IbvVirtualQp) (qpIdx : Option ℕ) : Except Fault (Option ℕ) :=
  if qpIdx = some 0 then .ok (some 0) else v.findAvailableRecvQp

/-- One round of `mapPendingRecvQueToPhysicalQp`. -/
def mapPendingRecvRound (s : IbvVirtualQp × Option ℕ) :
    Except Fault (Bool × IbvVirtualQp × Option ℕ) :=
  match s.1.pendingRecvVirtualWrQue_ with
  | [] => .ok (false, s)
  | w :: rest =>
    if w.wr.num_sge = 0 then do
      let v ← s.1.postRecvNotifyImm none
      .ok (true, v, s.2)
    else do
      let availableQpIdx ← s.1.selectRecvQp s.2
      match availableQpIdx with
      | none => .ok (false, s.1, none)
      | some i => do
        let v ← s.1.postRecvSegment i w rest
        .ok (true, v, none)

def recvRounds (ws : List VirtualRecvWr) : ℕ :=
  (ws.map fun w => (w.remainingMsgCnt - INT_MIN).toNat + 1).sum + 1

def mapPendingRecvQueToPhysicalQp (v : IbvVirtualQp) (qpIdx : Option ℕ) :
    Except Fault IbvVirtualQp :=
  (loop .diverged mapPendingRecvRound (recvRounds v.pendingRecvVirtualWrQue_) (v, qpIdx)).map
    Prod.fst

/-- The number of segments of a receive. -/
def recvSegmentCount (v : IbvVirtualQp) (recvWr : IbvRecvWr) : Except Fault ℤ :=
  if recvWr.num_sge = 1 then
    match recvWr.sg_list with
    | none => .error .undefined
    | some sg => segmentCount sg.length v.maxMsgSize_
  else .ok 1

def postRecv (v : IbvVirtualQp) (recvWr : IbvRecvWr) :
    Except Fault (VirtualCqRequest × IbvVirtualQp) :=
  if 1 < recvWr.num_sge then .error (.error ⟨EINVAL, "Invalid argument"⟩)
  else do
    let expectedMsgCnt ← v.recvSegmentCount recvWr
    let request := VirtualCqRequest.RECV v.virtualQpNum_ expectedMsgCnt recvWr
    let v := { v with
      pendingRecvVirtualWrQue_ := v.pendingRecvVirtualWrQue_ ++
        [VirtualRecvWr.ofWr recvWr expectedMsgCnt] }
    match v.loadBalancingScheme_ with
    | .SPRAY => do
      let v ← v.mapPendingRecvQueToPhysicalQp none
      .ok (request, v)
    | .DQPLB =>
      .ok (request, if v.dqplbReceiverInitialized_ then v else v.initializeDqplbReceiver)

/-! ### Completions -/

def emptyStatusError (field : String) (physicalQpNum : ℕ) : Error :=
  ⟨EINVAL, "In pollCq, after calling submit command to IbvVirtualQp,               " ++ field ++
    "_ at physicalQp " ++ toString physicalQpNum ++ " is empty!"⟩

def mismatchError (field : String) (physicalWrId wrId : ℕ) : Error :=
  ⟨EINVAL, "In pollCq, after calling submit command to IbvVirtualQp,               " ++ field ++
    ".physicalWrId(" ++ toString physicalWrId ++ ") != request.wrId(" ++ toString wrId ++ ")"⟩

/-- The index of the physical QP with a number; `none` is the notify QP. -/
def idxOfQpNum (v : IbvVirtualQp) (physicalQpNum : ℕ) : Except Fault (Option ℕ) :=
  if physicalQpNum = v.notifyQp_.qp_num then .ok none
  else
    match v.qpNumToIdx_ physicalQpNum with
    | none => .error .outOfRange
    | some i => .ok (some i)

def processRecv (v : IbvVirtualQp) (qpIdx : Option ℕ) (q : IbvQp) (request : VirtualQpRequest) :
    Except Fault (VirtualQpResponse × IbvVirtualQp) :=
  match q.physicalRecvWrStatus_ with
  | [] => .error (.error (emptyStatusError "physicalRecvWrStatus" request.physicalQpNum))
  | st :: sts =>
    if st.physicalWrId ≠ request.wrId then
      .error (.error (mismatchError "physicalRecvWrStatus" st.physicalWrId request.wrId))
    else
      let v := v.setQp qpIdx { q with physicalRecvWrStatus_ := sts }
      match v.loadBalancingScheme_ with
      | .DQPLB => do
        let v ← v.postRecvNotifyImm qpIdx
        let r := v.dqplbSeqTracker.processReceivedImm request.immData
        .ok (⟨st.virtualWrId, true, r.1⟩, { v with dqplbSeqTracker := r.2 })
      | .SPRAY =>
        match qpIdx with
        | none => .ok (⟨st.virtualWrId, false, 0⟩, v)
        | some i => do
          let v ← v.mapPendingRecvQueToPhysicalQp (some i)
          .ok (⟨st.virtualWrId, false, 0⟩, v)

def processSend (v : IbvVirtualQp) (qpIdx : Option ℕ) (q : IbvQp) (request : VirtualQpRequest) :
    Except Fault (VirtualQpResponse × IbvVirtualQp) :=
  match q.physicalSendWrStatus_ with
  | [] => .error (.error (emptyStatusError "physicalSendWrStatus" request.physicalQpNum))
  | st :: sts =>
    if st.physicalWrId ≠ request.wrId then
      .error (.error (mismatchError "physicalSendWrStatus" st.physicalWrId request.wrId))
    else
      let v := v.setQp qpIdx { q with physicalSendWrStatus_ := sts }
      match qpIdx with
      | none => .ok (⟨st.virtualWrId, false, 0⟩, v)
      | some i => do
        let v ← v.mapPendingSendQueToPhysicalQp (some i)
        .ok (⟨st.virtualWrId, false, 0⟩, v)

/-- A request for a notification that is not the next one is ignored. -/
def processSendNotify (v : IbvVirtualQp) (request : VirtualQpRequest) :
    Except Fault (VirtualQpResponse × IbvVirtualQp) :=
  match v.pendingSendNotifyVirtualWrQue_ with
  | [] => .error (.error ⟨EINVAL, "Tried to post send notify IMM message for wrId " ++
      toString request.wrId ++ " when pendingSendNotifyVirtualWrQue_ is empty"⟩)
  | w :: _ =>
    if w.wr.wr_id = request.wrId then do
      let v ← v.postSendNotifyImm
      .ok ({}, v)
    else .ok ({}, v)

def processRequest (v : IbvVirtualQp) (request : VirtualQpRequest) :
    Except Fault (VirtualQpResponse × IbvVirtualQp) := do
  let qpIdx ← v.idxOfQpNum request.physicalQpNum
  match v.qp? qpIdx with
  | none => .error .outOfRange
  | some q =>
    match request.type with
    | .RECV => v.processRecv qpIdx q request
    | .SEND => v.processSend qpIdx q request
    | .SEND_NOTIFY => v.processSendNotify request

end IbvVirtualQp
end TorchComms.Ibverbx
