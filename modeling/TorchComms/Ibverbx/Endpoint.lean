import TorchComms.Foundation.Run
import TorchComms.Ibverbx.VirtualCq

/-! # A virtual QP with its virtual CQs

The coordinator routes the requests of one virtual QP and of the virtual CQs its sends and
receives complete on, which may be the same. A physical completion is processed when the
device produces it: the order within a QP is kept, the order across QPs is free.
-/
namespace TorchComms.Ibverbx

open Foundation

structure Endpoint where
  vqp : IbvVirtualQp
  cqs : ℕ → IbvVirtualCq := fun _ => {}
  sendCq : ℕ
  recvCq : ℕ

namespace Endpoint

def updateCq (e : Endpoint) (c : ℕ) (cq : IbvVirtualCq) : Endpoint :=
  { e with cqs := Function.update e.cqs c cq }

/-- `submitRequestToVirtualCq`: to the CQ of the direction. -/
def submitRequestToVirtualCq (e : Endpoint) (request : VirtualCqRequest) : Endpoint :=
  match request with
  | .SEND .. => e.updateCq e.sendCq ((e.cqs e.sendCq).processRequest request)
  | .RECV .. => e.updateCq e.recvCq ((e.cqs e.recvCq).processRequest request)

def postSend (e : Endpoint) (sendWr : IbvSendWr) : Except Fault Endpoint := do
  let (request, vqp) ← e.vqp.postSend sendWr
  .ok ({ e with vqp := vqp }.submitRequestToVirtualCq request)

def postRecv (e : Endpoint) (recvWr : IbvRecvWr) : Except Fault Endpoint := do
  let (request, vqp) ← e.vqp.postRecv recvWr
  .ok ({ e with vqp := vqp }.submitRequestToVirtualCq request)

/-- The branch of `loopPollPhysicalCqUntilEmpty` for a receive. -/
def processRecvWc (e : Endpoint) (physicalWc : IbvWc) : Except Fault Endpoint := do
  let immData :=
    if physicalWc.opcode = .IBV_WC_RECV_RDMA_WITH_IMM then physicalWc.imm_data else 0
  let (response, vqp) ← e.vqp.processRequest
    ⟨.RECV, physicalWc.wr_id, physicalWc.qp_num, immData⟩
  if response.useDqplb then
    .ok ({ e with vqp := vqp }.updateCq e.recvCq
      ((e.cqs e.recvCq).processNotifyCount response.notifyCount))
  else do
    let (_, cq) ← (e.cqs e.recvCq).charge response.virtualWrId physicalWc
    .ok ({ e with vqp := vqp }.updateCq e.recvCq cq)

/-- The branch of `loopPollPhysicalCqUntilEmpty` for a send. -/
def processSendWc (e : Endpoint) (physicalWc : IbvWc) : Except Fault Endpoint := do
  let (response, vqp) ← e.vqp.processRequest ⟨.SEND, physicalWc.wr_id, physicalWc.qp_num, 0⟩
  let (w, cq) ← (e.cqs e.sendCq).charge response.virtualWrId physicalWc
  let e := { e with vqp := vqp }.updateCq e.sendCq cq
  if w.remainingMsgCnt = 1 ∧ w.sendExtraNotifyImm then do
    let (_, vqp) ← e.vqp.processRequest
      ⟨.SEND_NOTIFY, response.virtualWrId, physicalWc.qp_num, 0⟩
    .ok { e with vqp := vqp }
  else .ok e

/-- The device completes the next send of a QP; `wc` is what else it reports. -/
def sendCompletion (e : Endpoint) (qpIdx : Option ℕ) (wc : IbvWc) : Except Fault Endpoint :=
  match e.vqp.qp? qpIdx with
  | none => .error .outOfRange
  | some q =>
    match q.completeSend with
    | none => .ok e
    | some (wqe, q') =>
      { e with vqp := e.vqp.setQp qpIdx q' }.processSendWc
        { wc with wr_id := wqe.wr.wr_id, qp_num := q.qp_num, opcode := wcOpcode wqe.wr.opcode }

/-- The device completes the next receive of a QP, with or without immediate data. -/
def recvCompletion (e : Endpoint) (qpIdx : Option ℕ) (withImm : Bool) (wc : IbvWc) :
    Except Fault Endpoint :=
  match e.vqp.qp? qpIdx with
  | none => .error .outOfRange
  | some q =>
    match q.completeRecv with
    | none => .ok e
    | some (wqe, q') =>
      { e with vqp := e.vqp.setQp qpIdx q' }.processRecvWc
        { wc with
          wr_id := wqe.wr.wr_id
          qp_num := q.qp_num
          opcode := if withImm then .IBV_WC_RECV_RDMA_WITH_IMM else .IBV_WC_RECV }

/-- The virtual completions returned, after `pollCq` has emptied the physical CQ. -/
def pollVirtualCq (e : Endpoint) (c numEntries : ℕ) : Except Fault (List IbvWc × Endpoint) := do
  let (wcs, cq) ← (e.cqs c).loopPollVirtualCqUntil numEntries
  .ok (wcs, e.updateCq c cq)

inductive Op where
  | postSend (sendWr : IbvSendWr)
  | postRecv (recvWr : IbvRecvWr)
  | sendCompletion (qpIdx : Option ℕ) (wc : IbvWc)
  | recvCompletion (qpIdx : Option ℕ) (withImm : Bool) (wc : IbvWc)
  | pollVirtualCq (c numEntries : ℕ)
deriving DecidableEq

def step (e : Endpoint) : Op → Except Fault Endpoint
  | .postSend sendWr => e.postSend sendWr
  | .postRecv recvWr => e.postRecv recvWr
  | .sendCompletion qpIdx wc => e.sendCompletion qpIdx wc
  | .recvCompletion qpIdx withImm wc => e.recvCompletion qpIdx withImm wc
  | .pollVirtualCq c numEntries => (e.pollVirtualCq c numEntries).map Prod.snd

/-- A new virtual QP on its CQs. -/
def create (qpNums : List ℕ) (notifyQpNum : ℕ) (maxMsgCntPerQp maxMsgSize : ℤ)
    (loadBalancingScheme : LoadBalancingScheme) (sendCq recvCq : ℕ) : Endpoint where
  vqp := .create qpNums notifyQpNum maxMsgCntPerQp maxMsgSize loadBalancingScheme
  sendCq := sendCq
  recvCq := recvCq

end Endpoint
end TorchComms.Ibverbx
