import TorchComms.CommSpecs
import TorchComms.Foundation.Run
import Mathlib.Data.Int.Basic

/-! # Control messages of `CtranIbVirtualConn`

One sending and one receiving virtual connection and the control QP between them. Packets are
named by their index in the pre-registered arrays; the QP carries the oldest posted send into
the oldest posted receive, reading the sender's packet when it does so. Both sides see the
completion later.
-/

/-! ## `CtranIbRequest`: the reference count a caller waits on -/
namespace TorchComms.CtranIb

inductive RequestState where
  | INCOMPLETE
  | COMPLETE
deriving DecidableEq, Repr

structure CtranIbRequest where
  refCount_ : ℤ := 1
  state_ : RequestState := .INCOMPLETE
deriving DecidableEq, Repr

namespace CtranIbRequest

def complete (r : CtranIbRequest) : Except CommResult CtranIbRequest :=
  let refCount := r.refCount_ - 1
  if refCount < 0 then .error .commInternalError
  else if refCount = 0 then .ok ⟨refCount, .COMPLETE⟩
  else .ok { r with refCount_ := refCount }

def isComplete (r : CtranIbRequest) : Bool := decide (r.state_ = .COMPLETE)

@[simp] theorem complete_default :
    complete { refCount_ := 1, state_ := .INCOMPLETE } = .ok ⟨0, .COMPLETE⟩ := rfl

end CtranIbRequest

open Foundation

def MAX_PAYLOAD_SIZE : ℕ := 4096
def MAX_CONTROL_MSGS : ℕ := 128

/-- A packet never holds more than its buffer. -/
structure CtrlPacket where
  type : ℤ := 0
  payload : List UInt8 := []
  fits : payload.length ≤ MAX_PAYLOAD_SIZE := by decide
deriving DecidableEq

namespace CtrlPacket

def size (p : CtrlPacket) : ℕ := p.payload.length

end CtrlPacket

/-- How a call can fail: `FB_CHECKABORT`, an error code passed up by `FB_COMMCHECK`, the front
of an empty deque, or a completion that the QP has not produced. -/
inductive CtrlFault where
  | abort
  | failed (res : CommResult)
  | emptyDeque
  | noCompletion
deriving DecidableEq, Repr

/-- `copyFrom`: the abort is on the size of the payload. -/
def CtrlPacket.copyFrom (type : ℤ) (payload : List UInt8) : Except CtrlFault CtrlPacket :=
  if h : payload.length ≤ MAX_PAYLOAD_SIZE then .ok ⟨type, payload, h⟩ else .error .abort

/-- `copyTo` into a receive buffer of `dstSize` bytes: the sizes must be equal. -/
def CtrlPacket.copyTo (p : CtrlPacket) (dstSize : ℕ) : Except CtrlFault (List UInt8) :=
  if p.size = dstSize then .ok p.payload else .error .abort

/-- Requests are named by their address. -/
abbrev Req := ℕ

structure ControlPendingSendWr where
  type : ℤ
  payload : List UInt8
  req : Req
deriving DecidableEq

structure ControlPostedRecvWr where
  size : ℕ
  req : Req
deriving DecidableEq

structure SendCtrl where
  packets_ : ℕ → CtrlPacket
  freePkts_ : List ℕ
  postedPkts_ : List ℕ
  postedReqs_ : List Req
  enqueuedWrs_ : List ControlPendingSendWr

structure RecvCtrl where
  packets_ : ℕ → CtrlPacket
  postedPkts_ : List ℕ
  unexpWrs_ : List CtrlPacket
  enqueuedWrs_ : List ControlPostedRecvWr

/-- The control QP: sends it has not carried yet, receives it has not filled yet, and the
numbers of completions that neither side has polled. -/
structure ControlQp where
  sq : List ℕ
  rq : List ℕ
  sendCqes : ℕ
  recvCqes : ℕ
deriving DecidableEq

/-- What the users of the two sides see: requests, received payloads and callbacks. -/
structure CtrlLink where
  sendCtrl_ : SendCtrl
  recvCtrl_ : RecvCtrl
  qp : ControlQp
  reqs : Req → CtranIbRequest
  sent : List Req
  received : List (Req × List UInt8)
  called : List (ℤ × List UInt8)

namespace CtrlLink

/-- After `setupVc` on both sides: all send packets free, all receive packets posted. -/
def setup : CtrlLink where
  sendCtrl_ := ⟨fun _ => {}, List.range MAX_CONTROL_MSGS, [], [], []⟩
  recvCtrl_ := ⟨fun _ => {}, List.range MAX_CONTROL_MSGS, [], []⟩
  qp := ⟨[], List.range MAX_CONTROL_MSGS, 0, 0⟩
  reqs := fun _ => {}
  sent := []
  received := []
  called := []

/-- `req.complete()`. -/
def complete (s : CtrlLink) (req : Req) : Except CtrlFault CtrlLink :=
  match (s.reqs req).complete with
  | .error res => .error (.failed res)
  | .ok r => .ok { s with reqs := Function.update s.reqs req r }

/-- Fill the packet and post it on the control QP. -/
def postPacket (s : CtrlLink) (idx : ℕ) (wr : ControlPendingSendWr) : Except CtrlFault CtrlLink :=
  match CtrlPacket.copyFrom wr.type wr.payload with
  | .error f => .error f
  | .ok p =>
    .ok { s with
      sendCtrl_ := { s.sendCtrl_ with
        packets_ := Function.update s.sendCtrl_.packets_ idx p
        postedPkts_ := s.sendCtrl_.postedPkts_ ++ [idx]
        postedReqs_ := s.sendCtrl_.postedReqs_ ++ [wr.req] }
      qp := { s.qp with sq := s.qp.sq ++ [idx] } }

def isendCtrlMsgImpl (s : CtrlLink) (wr : ControlPendingSendWr) : Except CtrlFault CtrlLink :=
  match s.sendCtrl_.freePkts_ with
  | [] => .ok { s with sendCtrl_ := { s.sendCtrl_ with
      enqueuedWrs_ := s.sendCtrl_.enqueuedWrs_ ++ [wr] } }
  | idx :: free =>
    { s with sendCtrl_ := { s.sendCtrl_ with freePkts_ := free } }.postPacket idx wr

def postEnqueuedSendWr (s : CtrlLink) : Except CtrlFault CtrlLink :=
  match s.sendCtrl_.enqueuedWrs_, s.sendCtrl_.freePkts_ with
  | wr :: wrs, idx :: free =>
    { s with sendCtrl_ := { s.sendCtrl_ with
      freePkts_ := free, enqueuedWrs_ := wrs } }.postPacket idx wr
  | _, _ => .error .emptyDeque

/-- The copy into the receive buffer, and the completion of its request. -/
def finishRecv (s : CtrlLink) (p : CtrlPacket) (wr : ControlPostedRecvWr) :
    Except CtrlFault CtrlLink :=
  match p.copyTo wr.size with
  | .error f => .error f
  | .ok payload => { s with received := s.received ++ [(wr.req, payload)] }.complete wr.req

def irecvCtrlMsgImpl (s : CtrlLink) (wr : ControlPostedRecvWr) : Except CtrlFault CtrlLink :=
  match s.recvCtrl_.unexpWrs_ with
  | [] => .ok { s with recvCtrl_ := { s.recvCtrl_ with
      enqueuedWrs_ := s.recvCtrl_.enqueuedWrs_ ++ [wr] } }
  | p :: unexp =>
    { s with recvCtrl_ := { s.recvCtrl_ with unexpWrs_ := unexp } }.finishRecv p wr

/-- The branch of `processCqeImpl` for `IBV_WC_SEND`. -/
def processSendCqe (s : CtrlLink) : Except CtrlFault CtrlLink :=
  match s.sendCtrl_.postedReqs_, s.sendCtrl_.postedPkts_ with
  | req :: reqs, idx :: pkts =>
    match { s with
        sendCtrl_ := { s.sendCtrl_ with
          postedReqs_ := reqs
          postedPkts_ := pkts
          freePkts_ := s.sendCtrl_.freePkts_ ++ [idx] }
        sent := s.sent ++ [req] }.complete req with
    | .error f => .error f
    | .ok s' =>
      match s'.sendCtrl_.enqueuedWrs_ with
      | [] => .ok s'
      | _ :: _ => s'.postEnqueuedSendWr
  | _, _ => .error .emptyDeque

/-- Where a received packet goes: to its callback, to the unexpected queue, or to the receive
that waits longest. -/
def dispatchPacket (hasCb : ℤ → Bool) (cbRes : CommResult) (s : CtrlLink) (p : CtrlPacket) :
    Except CtrlFault CtrlLink :=
  if hasCb p.type then
    if cbRes = .commSuccess then .ok { s with called := s.called ++ [(p.type, p.payload)] }
    else .error (.failed cbRes)
  else
    match s.recvCtrl_.enqueuedWrs_ with
    | [] => .ok { s with recvCtrl_ := { s.recvCtrl_ with
        unexpWrs_ := s.recvCtrl_.unexpWrs_ ++ [p] } }
    | wr :: wrs =>
      { s with recvCtrl_ := { s.recvCtrl_ with enqueuedWrs_ := wrs } }.finishRecv p wr

/-- Post the packet again for the next message. -/
def repost (s : CtrlLink) (idx : ℕ) : CtrlLink :=
  { s with
    recvCtrl_ := { s.recvCtrl_ with postedPkts_ := s.recvCtrl_.postedPkts_ ++ [idx] }
    qp := { s.qp with rq := s.qp.rq ++ [idx] } }

/-- The branch of `processCqeImpl` for `IBV_WC_RECV`; `cbRes` is what a callback returns. -/
def processRecvCqe (hasCb : ℤ → Bool) (cbRes : CommResult) (s : CtrlLink) :
    Except CtrlFault CtrlLink :=
  match s.recvCtrl_.postedPkts_ with
  | [] => .error .emptyDeque
  | idx :: pkts =>
    match { s with recvCtrl_ := { s.recvCtrl_ with postedPkts_ := pkts } }.dispatchPacket hasCb
        cbRes (s.recvCtrl_.packets_ idx) with
    | .error f => .error f
    | .ok s' => .ok (s'.repost idx)

/-- The QP carries its oldest send into its oldest receive. -/
def deliver (s : CtrlLink) : Except CtrlFault CtrlLink :=
  match s.qp.sq, s.qp.rq with
  | src :: sq, dst :: rq =>
    .ok { s with
      recvCtrl_ := { s.recvCtrl_ with
        packets_ := Function.update s.recvCtrl_.packets_ dst (s.sendCtrl_.packets_ src) }
      qp := ⟨sq, rq, s.qp.sendCqes + 1, s.qp.recvCqes + 1⟩ }
  | _, _ => .error .noCompletion

/-- Polling a send completion. -/
def pollSend (s : CtrlLink) : Except CtrlFault CtrlLink :=
  match s.qp.sendCqes with
  | 0 => .error .noCompletion
  | n + 1 => { s with qp := { s.qp with sendCqes := n } }.processSendCqe

/-- Polling a receive completion. -/
def pollRecv (hasCb : ℤ → Bool) (cbRes : CommResult) (s : CtrlLink) : Except CtrlFault CtrlLink :=
  match s.qp.recvCqes with
  | 0 => .error .noCompletion
  | n + 1 => { s with qp := { s.qp with recvCqes := n } }.processRecvCqe hasCb cbRes

inductive Op where
  | isendCtrlMsg (wr : ControlPendingSendWr)
  | irecvCtrlMsg (wr : ControlPostedRecvWr)
  | deliver
  | pollSend
  | pollRecv (cbRes : CommResult)
deriving DecidableEq

def step (hasCb : ℤ → Bool) (s : CtrlLink) : Op → Except CtrlFault CtrlLink
  | .isendCtrlMsg wr => s.isendCtrlMsgImpl wr
  | .irecvCtrlMsg wr => s.irecvCtrlMsgImpl wr
  | .deliver => s.deliver
  | .pollSend => s.pollSend
  | .pollRecv cbRes => s.pollRecv hasCb cbRes

end CtrlLink
end TorchComms.CtranIb
