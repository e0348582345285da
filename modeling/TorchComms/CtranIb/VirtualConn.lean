import TorchComms.CommSpecs
import TorchComms.Foundation.Loop
import TorchComms.Foundation.Run

/-! # The data path of `CtranIbVirtualConn`

Puts and gets are cut into work requests that go out over the data QPs; a short one may go out at
once on QP 0. Puts and gets are handled alike, each with its own queues. The wire holds what was
posted and has not completed, in the order of the posts, and a QP completes its own in that order.
-/
namespace TorchComms.CtranIb

open Foundation

def MAX_SEND_WR : ℕ := 256
def kNotifyBit : ℕ := 31
def kFastPutBit : ℕ := 30
def kSeqNumMask : ℕ := 0xFFFFFF

inductive VcMode where
  | spray
  | dqplb
deriving DecidableEq, Repr

/-- The configuration of one operation. -/
structure CtranIbConfig where
  numQps : ℕ
  qpMsgs : ℕ
  qpScalingTh : ℕ
  vcMode : VcMode
  numQps_pos : 0 < numQps := by decide
  qpMsgs_pos : 0 < qpMsgs := by decide
deriving DecidableEq, Repr

/-- What `setDefaultQPConfig` and the port leave in the connection. -/
structure VcConfig where
  maxNumQps_ : ℕ
  maxQpMsgs_ : ℕ
  qpScalingTh_ : ℕ
  vcMode_ : VcMode
  mtu_ : ℕ
  maxMsgSize_ : ℕ
  devicesPerRank : ℕ
  maxNumQps_pos : 0 < maxNumQps_ := by decide
  maxQpMsgs_pos : 0 < maxQpMsgs_ := by decide
  maxQpMsgs_le : maxQpMsgs_ ≤ MAX_SEND_WR := by decide
  mtu_pos : 0 < mtu_ := by decide
  maxMsgSize_pos : 0 < maxMsgSize_ := by decide
  devicesPerRank_dvd : devicesPerRank ∣ maxNumQps_ := by decide

inductive OpKind where
  | put
  | get
deriving DecidableEq, Repr

/-- `PutInfo` and `GetInfo`; a get never notifies. -/
structure OpInfo where
  sbuf : ℕ
  dbuf : ℕ
  len : ℕ
  lkeys : List ℕ
  rkeys : List ℕ
  notify : Bool
  req : Option ℕ
  config : Option CtranIbConfig
  vcMode : VcMode
  id : ℕ
  offset : ℕ := 0
  outstandingWqes : ℕ := 0
deriving DecidableEq, Repr

namespace VcConfig

variable (c : VcConfig)

def getIbDevFromQpIdx (qpIdx : ℕ) : ℕ := qpIdx / (c.maxNumQps_ / c.devicesPerRank)

def getOpQps (config : Option CtranIbConfig) : ℕ := (config.map (·.numQps)).getD c.maxNumQps_

def getOpVcMode (config : Option CtranIbConfig) : VcMode := (config.map (·.vcMode)).getD c.vcMode_

def getOpMaxQpMsgs (config : Option CtranIbConfig) : ℕ :=
  (config.map (·.qpMsgs)).getD c.maxQpMsgs_

def getOpScalingTh (config : Option CtranIbConfig) : ℕ :=
  (config.map (·.qpScalingTh)).getD c.qpScalingTh_

/-- The limit on one work request of an operation: its threshold, or an equal share of its length,
locked between the MTU and what the port supports. -/
def maxWqeSize (op : OpInfo) : ℕ :=
  let perOpScalingTh := c.getOpScalingTh op.config
  let opqps := min (c.getOpQps op.config) c.maxNumQps_
  min c.maxMsgSize_ (max (if 0 < perOpScalingTh then perOpScalingTh else op.len / opqps) c.mtu_)

/-- How much of the operation the next work request carries. -/
def toSend (op : OpInfo) : ℕ := min (op.len - op.offset) (c.maxWqeSize op)

/-- `finalWriteOfPut` and `finalReadOfGet`. -/
def isFinal (op : OpInfo) : Bool := c.toSend op = op.len - op.offset

def advance (op : OpInfo) : OpInfo :=
  { op with offset := op.offset + c.toSend op, outstandingWqes := op.outstandingWqes + 1 }

/-- The limit on an operation of the fast path. -/
def maxFastSize (config : Option CtranIbConfig) (len : ℕ) : ℕ :=
  let perOpScalingTh := c.getOpScalingTh config
  min c.maxMsgSize_ (max (if 0 < perOpScalingTh then perOpScalingTh else len) c.mtu_)

end VcConfig

/-- `FastPutInfo` and `FastGetInfo`. -/
structure FastOpInfo where
  id : ℕ
  req : Option ℕ
deriving DecidableEq, Repr

/-- `pendingPuts_`, `outstandingPuts_` and `outstandingFastPuts_`, or those of the gets. -/
structure OpQueues where
  pending : List OpInfo := []
  outstanding : List OpInfo := []
  fast : List FastOpInfo := []
deriving DecidableEq, Repr

/-- The queues after a work request of the front operation, which may be its last. -/
def OpQueues.advance (q : OpQueues) (op : OpInfo) (rest : List OpInfo) (final : Bool) : OpQueues :=
  if final then { q with pending := rest, outstanding := q.outstanding ++ [op] }
  else { q with pending := op :: rest }

/-- The operation that a pointer leads to gets one work request less. -/
def OpInfo.retire (id : ℕ) (op : OpInfo) : OpInfo :=
  if op.id = id then { op with outstandingWqes := op.outstandingWqes - 1 } else op

def OpQueues.retire (q : OpQueues) (id : ℕ) : OpQueues :=
  { q with
    pending := q.pending.map (OpInfo.retire id)
    outstanding := q.outstanding.map (OpInfo.retire id) }

/-- The pointer of the entry leads to an operation by kind and number. -/
structure WqeInfo where
  wrId : ℕ
  kind : OpKind
  id : ℕ
deriving DecidableEq, Repr

structure NotifyInfo where
  wrId : ℕ
  req : Option ℕ
  putId : Option ℕ
deriving DecidableEq, Repr

inductive WrOpcode where
  | RDMA_WRITE
  | RDMA_WRITE_WITH_IMM
  | RDMA_READ
deriving DecidableEq, Repr

/-- `processCqe` takes the completion of a read to `readComplete`, of any write to
`writeComplete`. -/
def WrOpcode.kind : WrOpcode → OpKind
  | .RDMA_READ => .get
  | _ => .put

structure SendWr where
  wrId : ℕ
  opcode : WrOpcode
  addr : ℕ
  length : ℕ
  lkey : ℕ
  remoteAddr : ℕ
  rkey : ℕ
  immData : ℕ := 0
deriving DecidableEq, Repr

/-- A work request on a data QP; `id` and `fast` say what it was posted for. -/
structure Posted where
  qpIdx : ℕ
  wr : SendWr
  id : ℕ
  fast : Bool
deriving DecidableEq, Repr

def Posted.kind (p : Posted) : OpKind := p.wr.opcode.kind

/-- Whose request it is: a put's or a get's, or that of a call of `notify`. -/
inductive Owner where
  | op (kind : OpKind) (id : ℕ)
  | notify (wrId : ℕ)
deriving DecidableEq, Repr

def NotifyInfo.owner (n : NotifyInfo) : Owner :=
  (n.putId.map (Owner.op .put)).getD (.notify n.wrId)

/-- An operation that the connection accepted. -/
structure Issued where
  kind : OpKind
  id : ℕ
  len : ℕ
  notify : Bool
  vcMode : VcMode
  fast : Bool
deriving DecidableEq, Repr

/-- From `wire` on: the data QPs and the notify QP, and the logs of what was posted, accepted,
asked for and completed, of the calls of `notify`, and of the notifications queued and completed. -/
structure CtranIbVirtualConn where
  cfg : VcConfig
  ops : OpKind → OpQueues := fun _ => {}
  opId_ : OpKind → ℕ := fun _ => 0
  pendingWqeQs_ : ℕ → List WqeInfo := fun _ => []
  qpIdxRR_ : ℕ := 0
  sndNxt_ : ℕ := 0
  nextWrId_ : ℕ := 65536
  pendingNotifies_ : List NotifyInfo := []
  outstandingNotifies_ : List NotifyInfo := []
  wire : List Posted := []
  notifyWire : List ℕ := []
  posted : List Posted := []
  issued : List Issued := []
  requests : List (Owner × ℕ) := []
  completed : List (Owner × ℕ) := []
  calls : List ℕ := []
  queued : List NotifyInfo := []
  notified : List NotifyInfo := []

/-- A failed `FB_CHECKABORT`, the exception of `queueWriteOnQp`, a dangling pointer, a completion
that no QP has, or a loop that does not end. -/
inductive VcFault where
  | abort
  | lengthMismatch
  | badPointer
  | noCompletion
  | diverged
deriving DecidableEq, Repr

namespace CtranIbVirtualConn

variable (t : CtranIbVirtualConn)

def setOps (kind : OpKind) (f : OpQueues → OpQueues) : CtranIbVirtualConn :=
  { t with ops := Function.update t.ops kind (f (t.ops kind)) }

/-- The operations that are not complete, in the order of their numbers. -/
def live (kind : OpKind) : List OpInfo := (t.ops kind).outstanding ++ (t.ops kind).pending

/-- `req->complete()` where there is a request. -/
def completeReq (owner : Owner) (req : Option ℕ) : CtranIbVirtualConn :=
  { t with completed := t.completed ++ (req.map (owner, ·)).toList }

def post (p : Posted) : CtranIbVirtualConn :=
  { t with nextWrId_ := t.nextWrId_ + 1, wire := t.wire ++ [p], posted := t.posted ++ [p] }

/-! ### Notifications on their own QP -/

def tryPostImmNotifyMsg : CtranIbVirtualConn :=
  if MAX_SEND_WR ≤ t.outstandingNotifies_.length then t
  else
    match t.pendingNotifies_ with
    | [] => t
    | notifyInfo :: rest =>
      { t with
        pendingNotifies_ := rest
        outstandingNotifies_ := t.outstandingNotifies_ ++ [notifyInfo]
        notifyWire := t.notifyWire ++ [notifyInfo.wrId] }

def enqueueNotify (req : Option ℕ) (putId : Option ℕ) : CtranIbVirtualConn :=
  { t with
    nextWrId_ := t.nextWrId_ + 1
    pendingNotifies_ := t.pendingNotifies_ ++ [⟨t.nextWrId_, req, putId⟩]
    queued := t.queued ++ [⟨t.nextWrId_, req, putId⟩] }

/-- `notify`, with the number of the put that it is for, if any. -/
def queueNotify (req : Option ℕ) (putId : Option ℕ) : CtranIbVirtualConn :=
  (t.enqueueNotify req putId).tryPostImmNotifyMsg

def acceptNotify (req : Option ℕ) : CtranIbVirtualConn :=
  { t with
    requests := t.requests ++ (req.map (Owner.notify t.nextWrId_, ·)).toList
    calls := t.calls ++ [t.nextWrId_] }

/-- `notify`, called on its own. -/
def notify (req : Option ℕ) : CtranIbVirtualConn := (t.acceptNotify req).queueNotify req none

/-! ### Posting -/

/-- A put in DQPLB mode with notification is numbered for the receiver. -/
def sequenced (op : OpInfo) : Bool := decide (op.vcMode ≠ .spray) && op.notify

def dataWr (kind : OpKind) (op : OpInfo) (toSend device : ℕ) (final : Bool) : SendWr :=
  match kind with
  | .put =>
    { wrId := t.nextWrId_
      opcode := if sequenced op then .RDMA_WRITE_WITH_IMM else .RDMA_WRITE
      addr := op.sbuf + op.offset
      length := toSend
      lkey := op.lkeys.getD device 0
      remoteAddr := op.dbuf + op.offset
      rkey := op.rkeys.getD device 0
      immData := if sequenced op then if final then t.sndNxt_ ||| 1 <<< kNotifyBit else t.sndNxt_
        else 0 }
  | .get =>
    { wrId := t.nextWrId_
      opcode := .RDMA_READ
      addr := op.dbuf + op.offset
      length := toSend
      lkey := op.lkeys.getD device 0
      remoteAddr := op.sbuf + op.offset
      rkey := op.rkeys.getD device 0 }

/-- One work request of the front operation is posted on a QP. -/
def postWqe (kind : OpKind) (i : ℕ) (op : OpInfo) (rest : List OpInfo) : CtranIbVirtualConn :=
  let final := t.cfg.isFinal op
  let wr := t.dataWr kind op (t.cfg.toSend op) (t.cfg.getIbDevFromQpIdx i) final
  let t : CtranIbVirtualConn := { t with
    sndNxt_ := if kind = .put ∧ sequenced op then (t.sndNxt_ + 1) &&& kSeqNumMask else t.sndNxt_
    pendingWqeQs_ :=
      Function.update t.pendingWqeQs_ i (t.pendingWqeQs_ i ++ [⟨wr.wrId, kind, op.id⟩]) }
  (t.setOps kind (OpQueues.advance · (t.cfg.advance op) rest final)).post ⟨i, wr, op.id, false⟩

/-- `queueWriteOnQp` and `queueReadOnQp`. -/
def queueOnQp (kind : OpKind) (i : ℕ) : Except VcFault CtranIbVirtualConn :=
  match (t.ops kind).pending with
  | [] => .ok t
  | op :: rest =>
    if t.cfg.isFinal op ∧ (t.cfg.advance op).offset ≠ op.len then .error .lengthMismatch
    else .ok (t.postWqe kind i op rest)

/-- `pendingWqeSize`: what counts against the limit of a QP; the fast QP has index 0. -/
def load (kind : OpKind) (q : ℕ) : ℕ :=
  (t.pendingWqeQs_ q).length + if q = 0 then (t.ops kind).fast.length else 0

def turn (qps : ℕ) : CtranIbVirtualConn := { t with qpIdxRR_ := (t.qpIdxRR_ + 1) % qps }

/-- One QP of the `for` loop of `tryToPostOp`. -/
def postOnNext (kind : OpKind) (qps maxmsgs : ℕ) (sent : Bool) :
    Except VcFault (Bool × CtranIbVirtualConn) :=
  if t.load kind t.qpIdxRR_ < maxmsgs then
    (t.queueOnQp kind t.qpIdxRR_).map fun t => (true, t.turn qps)
  else .ok (sent, t.turn qps)

/-- The `for` loop of `tryToPostOp`, over as many QPs as are left. -/
def postOnQps (kind : OpKind) (qps maxmsgs : ℕ) :
    ℕ → Bool → CtranIbVirtualConn → Except VcFault (Bool × CtranIbVirtualConn)
  | 0, sent, t => .ok (sent, t)
  | n + 1, sent, t =>
    match t.postOnNext kind qps maxmsgs sent with
    | .error e => .error e
    | .ok (sent, t) =>
      if (t.ops kind).pending = [] then .ok (sent, t) else postOnQps kind qps maxmsgs n sent t

/-- One round of the `while` loop of `tryToPostOp`, with the limits of the front operation. -/
def postRound (kind : OpKind) : Except VcFault (Bool × CtranIbVirtualConn) :=
  match (t.ops kind).pending with
  | [] => .ok (false, t)
  | op :: _ =>
    let qps := min (t.cfg.getOpQps op.config) t.cfg.maxNumQps_
    let maxmsgs := min (t.cfg.getOpMaxQpMsgs op.config) t.cfg.maxQpMsgs_
    postOnQps kind qps maxmsgs qps false t

/-- A bound on the work requests that the pending operations still need. -/
def backlog (kind : OpKind) : ℕ :=
  ((t.ops kind).pending.map fun op => op.len - op.offset + 1).sum

def tryToPostOp (kind : OpKind) : Except VcFault CtranIbVirtualConn :=
  loop .diverged (fun t => t.postRound kind) (t.backlog kind + 1) t

/-! ### The operations -/

/-- The arguments of `iput` and `iget`; without a registration there are no local keys. -/
structure OpArgs where
  sbuf : ℕ
  dbuf : ℕ
  len : ℕ
  ibRegElem : Option (List ℕ)
  rkeys : List ℕ
  notify : Bool
  config : Option CtranIbConfig
  req : Option ℕ
deriving DecidableEq, Repr

/-- The condition of the fast path, alike for puts and gets. -/
def isFastValid (kind : OpKind) (config : Option CtranIbConfig) (len numMessages : ℕ) : Bool :=
  ((t.ops kind).outstanding.isEmpty && (t.ops kind).pending.isEmpty) &&
    (decide ((t.ops kind).fast.length + numMessages ≤ t.cfg.maxQpMsgs_) &&
      decide (len ≤ t.cfg.maxFastSize config len))

def accept (kind : OpKind) (id : ℕ) (a : OpArgs) (fast : Bool) : CtranIbVirtualConn :=
  { t with
    issued := t.issued ++ [⟨kind, id, a.len, a.notify, t.cfg.getOpVcMode a.config, fast⟩]
    requests := t.requests ++ (a.req.map (Owner.op kind id, ·)).toList }

/-- The work request of the fast path, `processFastWriteWqe` for a put. -/
def fastWr (kind : OpKind) (a : OpArgs) (lkeys : List ℕ) (device : ℕ) : SendWr :=
  match kind with
  | .put =>
    { wrId := t.nextWrId_
      opcode := .RDMA_WRITE_WITH_IMM
      addr := a.sbuf
      length := a.len
      lkey := lkeys.getD device 0
      remoteAddr := a.dbuf
      rkey := a.rkeys.getD device 0
      immData := if a.notify then 1 <<< kFastPutBit ||| 1 <<< kNotifyBit else 1 <<< kFastPutBit }
  | .get =>
    { wrId := t.nextWrId_
      opcode := .RDMA_READ
      addr := a.dbuf
      length := a.len
      lkey := lkeys.getD device 0
      remoteAddr := a.sbuf
      rkey := a.rkeys.getD device 0 }

def postFast (kind : OpKind) (id : ℕ) (a : OpArgs) (lkeys : List ℕ) : CtranIbVirtualConn :=
  let wr := t.fastWr kind a lkeys (t.cfg.getIbDevFromQpIdx 0)
  let t : CtranIbVirtualConn := { t with
    sndNxt_ := if kind = .put then (t.sndNxt_ + 1) &&& kSeqNumMask else t.sndNxt_ }
  (t.setOps kind fun q => { q with fast := q.fast ++ [⟨id, a.req⟩] }).post ⟨0, wr, id, true⟩

def pushPending (kind : OpKind) (id : ℕ) (a : OpArgs) (lkeys : List ℕ) : CtranIbVirtualConn :=
  t.setOps kind fun q => { q with pending := q.pending ++ [{
    sbuf := a.sbuf
    dbuf := a.dbuf
    len := a.len
    lkeys := lkeys
    rkeys := a.rkeys
    notify := a.notify
    req := a.req
    config := a.config
    vcMode := t.cfg.getOpVcMode a.config
    id := id }] }

/-- `iputImpl` and `igetImpl`. -/
def issue (kind : OpKind) (a : OpArgs) (fast : Bool) :
    Except VcFault (CommResult × CtranIbVirtualConn) :=
  match a.ibRegElem with
  | none => .ok (.commSystemError, t)
  | some lkeys =>
    let id := t.opId_ kind
    let t : CtranIbVirtualConn := { t with opId_ := Function.update t.opId_ kind (id + 1) }
    if fast then
      if t.isFastValid kind a.config a.len 1 then
        .ok (.commSuccess, (t.accept kind id a true).postFast kind id a lkeys)
      else .ok (.commSystemError, t)
    else (((t.accept kind id a false).pushPending kind id a lkeys).tryToPostOp kind).map
      (.commSuccess, ·)

def iput (a : OpArgs) (fast : Bool) : Except VcFault (CommResult × CtranIbVirtualConn) :=
  t.issue .put a fast

def iget (a : OpArgs) (fast : Bool) : Except VcFault (CommResult × CtranIbVirtualConn) :=
  t.issue .get { a with notify := false } fast

/-! ### Completions -/

/-- An operation at the front that has completed: in spray mode a put with notification is not
done yet. -/
def finishOp (kind : OpKind) (op : OpInfo) : CtranIbVirtualConn :=
  if op.vcMode = .spray ∧ op.notify then t.queueNotify op.req (some op.id)
  else t.completeReq (.op kind op.id) op.req

def burnDownFrom (kind : OpKind) : List OpInfo → CtranIbVirtualConn → CtranIbVirtualConn
  | [], t => t
  | op :: rest, t =>
    if 0 < op.outstandingWqes ∨ op.offset < op.len then t
    else burnDownFrom kind rest
      ((t.finishOp kind op).setOps kind fun q => { q with outstanding := rest })

/-- `burnDownPuts` and `burnDownGets`. -/
def burnDown (kind : OpKind) : CtranIbVirtualConn :=
  if (t.ops kind).fast = [] then burnDownFrom kind (t.ops kind).outstanding t else t

def completeFast (kind : OpKind) (qpIdx : ℕ) (f : FastOpInfo) (rest : List FastOpInfo) :
    Except VcFault CtranIbVirtualConn :=
  let t := (t.completeReq (.op kind f.id) f.req).setOps kind fun q => { q with fast := rest }
  queueOnQp (if rest = [] then t.burnDown kind else t) kind qpIdx

def completeWqe (kind : OpKind) (qpIdx wrId : ℕ) : Except VcFault CtranIbVirtualConn :=
  match t.pendingWqeQs_ qpIdx with
  | [] => .error .abort
  | wqeInfo :: q =>
    match if wqeInfo.kind = kind then (t.live kind).find? (·.id = wqeInfo.id) else none with
    | none => .error .badPointer
    | some op =>
      if wqeInfo.wrId ≠ wrId ∨ op.outstandingWqes = 0 then .error .abort
      else
        let t : CtranIbVirtualConn := { t with pendingWqeQs_ := Function.update t.pendingWqeQs_ qpIdx q }
        ((t.setOps kind (OpQueues.retire · op.id)).burnDown kind).queueOnQp kind qpIdx

/-- `writeComplete` on a data QP, and `readComplete`. -/
def opComplete (kind : OpKind) (qpIdx wrId : ℕ) : Except VcFault CtranIbVirtualConn :=
  match (t.ops kind).fast with
  | f :: rest => if qpIdx = 0 then t.completeFast kind qpIdx f rest else t.completeWqe kind qpIdx wrId
  | [] => t.completeWqe kind qpIdx wrId

/-- `writeComplete` on the notify QP. -/
def notifyComplete (wrId : ℕ) : Except VcFault CtranIbVirtualConn :=
  match t.outstandingNotifies_ with
  | [] => .error .abort
  | notifyInfo :: rest =>
    if wrId ≠ notifyInfo.wrId then .error .abort
    else
      let t : CtranIbVirtualConn := { t with outstandingNotifies_ := rest, notified := t.notified ++ [notifyInfo] }
      .ok (t.completeReq notifyInfo.owner notifyInfo.req).tryPostImmNotifyMsg

/-- The oldest work request of a data QP completes. -/
def dataCqe (qpIdx : ℕ) : Except VcFault CtranIbVirtualConn :=
  match t.wire.find? (·.qpIdx = qpIdx) with
  | none => .error .noCompletion
  | some p =>
    let t : CtranIbVirtualConn := { t with wire := t.wire.eraseP (·.qpIdx = qpIdx) }
    t.opComplete p.kind qpIdx p.wr.wrId

/-- The oldest work request of the notify QP completes. -/
def notifyCqe : Except VcFault CtranIbVirtualConn :=
  match t.notifyWire with
  | [] => .error .noCompletion
  | wrId :: rest => notifyComplete { t with notifyWire := rest } wrId

inductive Op where
  | iput (a : OpArgs) (fast : Bool)
  | iget (a : OpArgs) (fast : Bool)
  | notify (req : Option ℕ)
  | dataCqe (qpIdx : ℕ)
  | notifyCqe
deriving DecidableEq, Repr

def step (t : CtranIbVirtualConn) : Op → Except VcFault CtranIbVirtualConn
  | .iput a fast => (t.iput a fast).map Prod.snd
  | .iget a fast => (t.iget a fast).map Prod.snd
  | .notify req => .ok (t.notify req)
  | .dataCqe qpIdx => t.dataCqe qpIdx
  | .notifyCqe => t.notifyCqe

/-- A completion is one that a QP can give. -/
def WellFormed (_ : List Op) (t : CtranIbVirtualConn) : Op → Prop
  | .dataCqe qpIdx => ∃ p ∈ t.wire, p.qpIdx = qpIdx
  | .notifyCqe => t.notifyWire ≠ []
  | _ => True

instance (past : List Op) (t : CtranIbVirtualConn) (op : Op) : Decidable (WellFormed past t op) :=
  match op with
  | .dataCqe qpIdx => inferInstanceAs (Decidable (∃ p ∈ t.wire, p.qpIdx = qpIdx))
  | .notifyCqe => inferInstanceAs (Decidable (t.notifyWire ≠ []))
  | .iput .. | .iget .. | .notify _ => isTrue trivial

/-! ### The smallest connections -/

def oneQp : VcConfig where
  maxNumQps_ := 1
  maxQpMsgs_ := 4
  qpScalingTh_ := 4096
  vcMode_ := .dqplb
  mtu_ := 4096
  maxMsgSize_ := 1073741824
  devicesPerRank := 1

/-- Two QPs, in spray mode. -/
def twoQps : VcConfig where
  maxNumQps_ := 2
  maxQpMsgs_ := 4
  qpScalingTh_ := 0
  vcMode_ := .spray
  mtu_ := 4096
  maxMsgSize_ := 1073741824
  devicesPerRank := 1

end CtranIbVirtualConn

/-- One QP on each of two devices. -/
def NotifyLink.twoDevices : VcConfig where
  maxNumQps_ := 2
  maxQpMsgs_ := 4
  qpScalingTh_ := 4096
  vcMode_ := .dqplb
  mtu_ := 4096
  maxMsgSize_ := 1073741824
  devicesPerRank := 2

end TorchComms.CtranIb
