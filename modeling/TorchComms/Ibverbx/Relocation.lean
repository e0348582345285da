import TorchComms.Foundation.Simulation
import TorchComms.Ibverbx.VirtualCq

/-! # Virtual QPs and CQs in memory, and their moves

The coordinator holds pointers, so a move has to change them. The program holds one virtual QP and
its CQs; an object that has been moved from stays where it was.
-/
namespace TorchComms.Ibverbx

open Foundation

/-! ### The moves -/

namespace IbvVirtualQp

/-- A physical QP that has been moved from. -/
def nullQp : IbvQp where
  qp_num := 0
  sq := ⟨[], 0, Nat.le_refl .zero⟩
  rq := ⟨[], 0, Nat.le_refl .zero⟩

/-- The members before a constructor sets any. -/
def blank : IbvVirtualQp where
  physicalQps_ := []
  qpNumToIdx_ := fun _ => none
  maxMsgCntPerQp_ := -1
  maxMsgSize_ := 0
  loadBalancingScheme_ := .SPRAY
  notifyQp_ := nullQp

/-- What the move construction and the move assignment set; of a new object `this` is `blank`. -/
def moveFrom (this other : IbvVirtualQp) : IbvVirtualQp :=
  { this with
    physicalQps_ := other.physicalQps_
    qpNumToIdx_ := other.qpNumToIdx_
    nextSendPhysicalQpIdx_ := other.nextSendPhysicalQpIdx_
    maxMsgCntPerQp_ := other.maxMsgCntPerQp_
    maxMsgSize_ := other.maxMsgSize_
    loadBalancingScheme_ := other.loadBalancingScheme_
    notifyQp_ := other.notifyQp_ }

def movedFrom (other : IbvVirtualQp) : IbvVirtualQp :=
  { other with
    physicalQps_ := []
    nextSendPhysicalQpIdx_ := 0
    qpNumToIdx_ := fun _ => none
    maxMsgCntPerQp_ := 0
    maxMsgSize_ := 0
    notifyQp_ := nullQp }

end IbvVirtualQp

/-- A virtual CQ with the physical one that it polls. -/
structure VcqObject where
  cq : IbvVirtualCq := {}
  physicalCq_ : Option ℕ := none

namespace VcqObject

/-- The map is not moved. Pointers of `this` into the queues that are replaced dangle, which is as
if they were null. -/
def moveFrom (this other : VcqObject) : VcqObject where
  cq :=
    { pendingSendVirtualWcQue_ := other.cq.pendingSendVirtualWcQue_
      pendingRecvVirtualWcQue_ := other.cq.pendingRecvVirtualWcQue_
      virtualWrIdToVirtualWc_ := fun id => (this.cq.virtualWrIdToVirtualWc_ id).map fun _ => none }
  physicalCq_ := other.physicalCq_

def movedFrom (other : VcqObject) : VcqObject where
  cq := { other.cq with pendingSendVirtualWcQue_ := {}, pendingRecvVirtualWcQue_ := {} }
  physicalCq_ := none

end VcqObject

/-! ### The program -/

structure Coordinator where
  virtualQpNumToVirtualSendCq_ : ℕ → Option ℕ
  virtualQpNumToVirtualRecvCq_ : ℕ → Option ℕ
  physicalQpNumToVirtualQp_ : ℕ → Option ℕ

/-- Entries that point to `oldPtr` point to `newPtr`. -/
def redirect (oldPtr newPtr : ℕ) (map : ℕ → Option ℕ) : ℕ → Option ℕ :=
  fun n => if map n = some oldPtr then some newPtr else map n

namespace Coordinator

def updateVirtualQpMapping (c : Coordinator) (oldPtr newPtr : ℕ) : Coordinator :=
  { c with physicalQpNumToVirtualQp_ := redirect oldPtr newPtr c.physicalQpNumToVirtualQp_ }

def updateVirtualSendCqMapping (c : Coordinator) (oldPtr newPtr : ℕ) : Coordinator :=
  { c with virtualQpNumToVirtualSendCq_ := redirect oldPtr newPtr c.virtualQpNumToVirtualSendCq_ }

def updateVirtualRecvCqMapping (c : Coordinator) (oldPtr newPtr : ℕ) : Coordinator :=
  { c with virtualQpNumToVirtualRecvCq_ := redirect oldPtr newPtr c.virtualQpNumToVirtualRecvCq_ }

end Coordinator

/-- The objects by their addresses, the addresses of those that the program uses, and the physical
CQs that the physical QPs complete on. -/
structure Process where
  vqps : ℕ → IbvVirtualQp
  vcqs : ℕ → VcqObject
  coordinator : Coordinator
  vqp : ℕ
  sendCq : ℕ
  recvCq : ℕ
  sendPhysicalCq : ℕ
  recvPhysicalCq : ℕ

/-- What a call returns: an error, or the completions that it reports. -/
inductive Reply where
  | ok (wcs : List IbvWc)
  | error (e : Error)
deriving DecidableEq, Repr

namespace Process

variable (p : Process)

def setVqp (a : ℕ) (v : IbvVirtualQp) : Process := { p with vqps := Function.update p.vqps a v }

def setCq (a : ℕ) (cq : IbvVirtualCq) : Process :=
  { p with vcqs := Function.update p.vcqs a { p.vcqs a with cq := cq } }

/-- An entry that is not there is a null pointer. -/
def submitRequestToVirtualQp (request : VirtualQpRequest) :
    Except Fault (Except Error VirtualQpResponse × Process) :=
  match p.coordinator.physicalQpNumToVirtualQp_ request.physicalQpNum with
  | none => .error .undefined
  | some a =>
    match (p.vqps a).processRequest request with
    | .ok (response, v) => .ok (.ok response, p.setVqp a v)
    | .error (.error e) => .ok (.error e, p)
    | .error f => .error f

def submitRequestToVirtualCq (request : VirtualCqRequest) : Except Fault Process :=
  match request with
  | .SEND virtualQpNum .. =>
    match p.coordinator.virtualQpNumToVirtualSendCq_ virtualQpNum with
    | none => .error .outOfRange
    | some a => .ok (p.setCq a ((p.vcqs a).cq.processRequest request))
  | .RECV virtualQpNum .. =>
    match p.coordinator.virtualQpNumToVirtualRecvCq_ virtualQpNum with
    | none => .error .outOfRange
    | some a => .ok (p.setCq a ((p.vcqs a).cq.processRequest request))

/-- A post on the virtual QP, with the request of its virtual CQ. -/
def post (posted : Except Fault (VirtualCqRequest × IbvVirtualQp)) :
    Except Fault (Reply × Process) :=
  match posted with
  | .ok (request, v) => do
    let p ← (p.setVqp p.vqp v).submitRequestToVirtualCq request
    .ok (.ok [], p)
  | .error (.error e) => .ok (.error e, p)
  | .error f => .error f

def postSend (sendWr : IbvSendWr) : Except Fault (Reply × Process) :=
  p.post ((p.vqps p.vqp).postSend sendWr)

def postRecv (recvWr : IbvRecvWr) : Except Fault (Reply × Process) :=
  p.post ((p.vqps p.vqp).postRecv recvWr)

/-- The branch of `loopPollPhysicalCqUntilEmpty` for a receive, in the virtual CQ at `a`. -/
def processRecvWc (a : ℕ) (physicalWc : IbvWc) : Except Fault (Reply × Process) := do
  let immData :=
    if physicalWc.opcode = .IBV_WC_RECV_RDMA_WITH_IMM then physicalWc.imm_data else 0
  let (response, p) ← p.submitRequestToVirtualQp
    ⟨.RECV, physicalWc.wr_id, physicalWc.qp_num, immData⟩
  match response with
  | .error e => .ok (.error e, p)
  | .ok response =>
    if response.useDqplb then
      .ok (.ok [], p.setCq a ((p.vcqs a).cq.processNotifyCount response.notifyCount))
    else do
      let (_, cq) ← (p.vcqs a).cq.charge response.virtualWrId physicalWc
      .ok (.ok [], p.setCq a cq)

/-- The branch of `loopPollPhysicalCqUntilEmpty` for a send. -/
def processSendWc (a : ℕ) (physicalWc : IbvWc) : Except Fault (Reply × Process) := do
  let (response, p) ← p.submitRequestToVirtualQp ⟨.SEND, physicalWc.wr_id, physicalWc.qp_num, 0⟩
  match response with
  | .error e => .ok (.error e, p)
  | .ok response => do
    let (w, cq) ← (p.vcqs a).cq.charge response.virtualWrId physicalWc
    if w.remainingMsgCnt = 1 ∧ w.sendExtraNotifyImm then do
      let (notified, p) ← (p.setCq a cq).submitRequestToVirtualQp
        ⟨.SEND_NOTIFY, response.virtualWrId, physicalWc.qp_num, 0⟩
      match notified with
      | .error e => .ok (.error e, p)
      | .ok _ => .ok (.ok [], p)
    else .ok (.ok [], p.setCq a cq)

/-- The device completes the next send of a QP, and the send CQ is polled for it. -/
def sendCompletion (qpIdx : Option ℕ) (wc : IbvWc) : Except Fault (Reply × Process) :=
  match (p.vqps p.vqp).qp? qpIdx with
  | none => .error .outOfRange
  | some q =>
    match q.completeSend with
    | none => .ok (.ok [], p)
    | some (wqe, q') =>
      if (p.vcqs p.sendCq).physicalCq_ = some p.sendPhysicalCq then
        (p.setVqp p.vqp ((p.vqps p.vqp).setQp qpIdx q')).processSendWc p.sendCq
          { wc with wr_id := wqe.wr.wr_id, qp_num := q.qp_num, opcode := wcOpcode wqe.wr.opcode }
      else .error .undefined

def recvCompletion (qpIdx : Option ℕ) (withImm : Bool) (wc : IbvWc) :
    Except Fault (Reply × Process) :=
  match (p.vqps p.vqp).qp? qpIdx with
  | none => .error .outOfRange
  | some q =>
    match q.completeRecv with
    | none => .ok (.ok [], p)
    | some (wqe, q') =>
      if (p.vcqs p.recvCq).physicalCq_ = some p.recvPhysicalCq then
        (p.setVqp p.vqp ((p.vqps p.vqp).setQp qpIdx q')).processRecvWc p.recvCq
          { wc with
            wr_id := wqe.wr.wr_id
            qp_num := q.qp_num
            opcode := if withImm then .IBV_WC_RECV_RDMA_WITH_IMM else .IBV_WC_RECV }
      else .error .undefined

/-- `pollCq` of the virtual CQ at `a`, once its physical CQ is empty. -/
def pollVirtualCq (a numEntries : ℕ) : Except Fault (Reply × Process) :=
  if (p.vcqs a).physicalCq_ = none then .error .undefined
  else do
    let (wcs, cq) ← (p.vcqs a).cq.loopPollVirtualCqUntil numEntries
    .ok (.ok wcs, p.setCq a cq)

/-! ### Its operations -/

inductive Call where
  | postSend (sendWr : IbvSendWr)
  | postRecv (recvWr : IbvRecvWr)
  | sendCompletion (qpIdx : Option ℕ) (wc : IbvWc)
  | recvCompletion (qpIdx : Option ℕ) (withImm : Bool) (wc : IbvWc)
  | pollSendCq (numEntries : ℕ)
  | pollRecvCq (numEntries : ℕ)
deriving DecidableEq

def call : Call → Except Fault (Reply × Process)
  | .postSend sendWr => p.postSend sendWr
  | .postRecv recvWr => p.postRecv recvWr
  | .sendCompletion qpIdx wc => p.sendCompletion qpIdx wc
  | .recvCompletion qpIdx withImm wc => p.recvCompletion qpIdx withImm wc
  | .pollSendCq numEntries => p.pollVirtualCq p.sendCq numEntries
  | .pollRecvCq numEntries => p.pollVirtualCq p.recvCq numEntries

/-- The virtual QP moves to the object at `target`, a new one or one that is assigned to. -/
def moveVqp (target : ℕ) (construct : Bool) : Process :=
  if target = p.vqp then p
  else
    let this := if construct then .blank else p.vqps target
    { p with
      vqps := Function.update (Function.update p.vqps target (this.moveFrom (p.vqps p.vqp)))
        p.vqp (p.vqps p.vqp).movedFrom
      coordinator := p.coordinator.updateVirtualQpMapping p.vqp target
      vqp := target }

/-- The virtual CQ at `a`, one of the two that the program uses, moves. -/
def moveCq (a target : ℕ) (construct : Bool) : Process :=
  if target = a then p
  else
    let this := if construct then {} else p.vcqs target
    { p with
      vcqs := Function.update (Function.update p.vcqs target (this.moveFrom (p.vcqs a)))
        a (p.vcqs a).movedFrom
      coordinator :=
        (p.coordinator.updateVirtualSendCqMapping a target).updateVirtualRecvCqMapping a target
      sendCq := if p.sendCq = a then target else p.sendCq
      recvCq := if p.recvCq = a then target else p.recvCq }

inductive Move where
  | vqp (target : ℕ) (construct : Bool)
  | sendCq (target : ℕ) (construct : Bool)
  | recvCq (target : ℕ) (construct : Bool)
deriving DecidableEq

def move : Move → Process
  | .vqp target construct => p.moveVqp target construct
  | .sendCq target construct => p.moveCq p.sendCq target construct
  | .recvCq target construct => p.moveCq p.recvCq target construct

/-- An object is not moved over another one in use. -/
def Free : Move → Prop
  | .vqp _ _ => True
  | .sendCq target _ => target = p.recvCq → target = p.sendCq
  | .recvCq target _ => target = p.sendCq → target = p.recvCq

inductive Op where
  | call (c : Call)
  | move (m : Move)
deriving DecidableEq

def Op.isCall : Op → Bool
  | .call _ => true
  | .move _ => false

/-- What is seen of a call: its reply, and the physical QPs with all that has been posted on them. -/
structure Seen where
  reply : Reply
  notifyQp : IbvQp
  physicalQps : List IbvQp
deriving DecidableEq

/-- A step, with what has been seen so far. -/
def act (s : Process × List Seen) : Op → Except Fault (Process × List Seen)
  | .call c => (s.1.call c).map fun r =>
      (r.2, s.2 ++ [⟨r.1, (r.2.vqps r.2.vqp).notifyQp_, (r.2.vqps r.2.vqp).physicalQps_⟩])
  | .move m => .ok (s.1.move m, s.2)

/-- A new virtual QP on its virtual CQs, with any other objects. -/
def create (others : ℕ → IbvVirtualQp) (otherCqs : ℕ → VcqObject) (vqp sendCq recvCq : ℕ)
    (sendPhysicalCq recvPhysicalCq : ℕ) (qpNums : List ℕ) (notifyQpNum : ℕ)
    (maxMsgCntPerQp maxMsgSize : ℤ) (loadBalancingScheme : LoadBalancingScheme) : Process where
  vqps := Function.update others vqp
    (.create qpNums notifyQpNum maxMsgCntPerQp maxMsgSize loadBalancingScheme)
  vcqs := Function.update (Function.update otherCqs recvCq ⟨{}, some recvPhysicalCq⟩)
    sendCq ⟨{}, some sendPhysicalCq⟩
  coordinator :=
    { virtualQpNumToVirtualSendCq_ := fun n => if n = 0 then some sendCq else none
      virtualQpNumToVirtualRecvCq_ := fun n => if n = 0 then some recvCq else none
      physicalQpNumToVirtualQp_ := fun n => if n ∈ notifyQpNum :: qpNums then some vqp else none }
  vqp := vqp
  sendCq := sendCq
  recvCq := recvCq
  sendPhysicalCq := sendPhysicalCq
  recvPhysicalCq := if sendCq = recvCq then sendPhysicalCq else recvPhysicalCq

end Process
end TorchComms.Ibverbx
