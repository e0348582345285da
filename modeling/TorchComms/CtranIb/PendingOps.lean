import TorchComms.CommSpecs
import TorchComms.Foundation.Run
import Mathlib.Data.List.AList

/-! # Control operations that wait for a connection

One thread issues control operations, another runs `progressPendingOps`, and the virtual
connection to a peer may appear at any time. Each step is one section that the code runs under a
lock: the map of connections, the map of pending operations, or one connection.
-/
namespace TorchComms.CtranIb

open Foundation

/-- A control operation as the virtual connection gets it. -/
inductive VcCall where
  | isendCtrlMsg (type : ℤ) (payload size req : ℕ)
  | irecvCtrlMsg (payload size req : ℕ)
deriving DecidableEq, Repr

def VcCall.isSend : VcCall → Bool
  | .isendCtrlMsg .. => true
  | .irecvCtrlMsg .. => false

inductive PendingOpType where
  | ISEND_CTRL
  | IRECV_CTRL
deriving DecidableEq, Repr

structure PendingOp where
  opType : PendingOpType
  type : Option ℤ
  payload : ℕ
  size : ℕ
  peerRank : ℕ
  req : ℕ
deriving DecidableEq, Repr

namespace PendingOp

def ofCall (peerRank : ℕ) : VcCall → PendingOp
  | .isendCtrlMsg type payload size req => ⟨.ISEND_CTRL, some type, payload, size, peerRank, req⟩
  | .irecvCtrlMsg payload size req => ⟨.IRECV_CTRL, none, payload, size, peerRank, req⟩

/-- The call that posts the operation; a send without a type aborts. -/
def call (op : PendingOp) : Option VcCall :=
  match op.opType, op.type with
  | .ISEND_CTRL, some type => some (.isendCtrlMsg type op.payload op.size op.req)
  | .ISEND_CTRL, none => none
  | .IRECV_CTRL, _ => some (.irecvCtrlMsg op.payload op.size op.req)

@[simp] theorem call_ofCall (peerRank : ℕ) (c : VcCall) : (ofCall peerRank c).call = some c := by
  cases c <;> rfl

end PendingOp

/-- Where the issuing thread is in `isendCtrlMsgImpl` or `irecvCtrlMsgImpl`. -/
inductive Issuer where
  | idle
  | connecting (peerRank : ℕ) (c : VcCall)
  | gotVc (peerRank : ℕ) (c : VcCall) (vc : Bool)
  | direct (peerRank : ℕ) (c : VcCall)
deriving DecidableEq, Repr

/-- Where the other thread is in `progressPendingOps`; it holds `pendingOpsMutex` while it scans. -/
inductive Progress where
  | idle
  | scanning (todo : List ℕ) (readyToIssueOps : List (ℕ × List PendingOp))
  | posting (readyToIssueOps : List (ℕ × List PendingOp))
deriving DecidableEq, Repr

def Progress.holdsMutex : Progress → Bool
  | .scanning .. => true
  | _ => false

def Progress.ready : Progress → List (ℕ × List PendingOp)
  | .idle => []
  | .scanning _ ready => ready
  | .posting ready => ready

/-- The logs `issued` and `handed` are what the caller asked for and what the connections got. -/
structure CtranIbCtrl where
  rank : ℕ
  nRanks : ℕ
  connectedPeerMap : ℕ → Bool
  rankToVcMap : ℕ → Bool
  rankToPendingOpsMap : AList (fun _ : ℕ => List PendingOp) := ∅
  issuer : Issuer := .idle
  progress : Progress := .idle
  issued : ℕ → List VcCall := fun _ => []
  handed : ℕ → List VcCall := fun _ => []

namespace CtranIbCtrl

/-- Before any operation, with some peers connected in advance. -/
def init (rank nRanks : ℕ) (connected : ℕ → Bool) : CtranIbCtrl where
  rank := rank
  nRanks := nRanks
  connectedPeerMap := connected
  rankToVcMap := connected

/-- Why a step does not happen: it is not the thread's next, or the code aborts or dereferences a
null connection. -/
inductive Fault where
  | notEnabled
  | abort
  | nullVc
deriving DecidableEq, Repr

/-- `updateVcState`: the connection to a peer is there from now on. -/
def updateVcState (t : CtranIbCtrl) (peerRank : ℕ) : CtranIbCtrl :=
  { t with rankToVcMap := Function.update t.rankToVcMap peerRank true }

/-- The operation is past its connection attempts. -/
def enter (t : CtranIbCtrl) (peerRank : ℕ) (c : VcCall) (vc : Bool) : CtranIbCtrl :=
  { t with
    issuer := .gotVc peerRank c vc
    issued := Function.update t.issued peerRank (t.issued peerRank ++ [c]) }

/-- The start of a control operation, up to the first `getVcImpl`. -/
def issue (t : CtranIbCtrl) (peerRank : ℕ) (c : VcCall) : Except Fault CtranIbCtrl :=
  match t.issuer with
  | .idle =>
    if t.nRanks ≤ peerRank then .ok t
    else if t.rank < peerRank ∧ t.rankToVcMap peerRank = false then
      .ok { t with issuer := .connecting peerRank c }
    else .ok (t.enter peerRank c (t.rankToVcMap peerRank))
  | _ => .error .notEnabled

/-- `bootstrapConnect` and the second `getVcImpl`; the call fails where the attempt does. -/
def bootstrapConnect (t : CtranIbCtrl) (ok : Bool) : Except Fault CtranIbCtrl :=
  match t.issuer with
  | .connecting peerRank c =>
    if ok ∧ t.rankToVcMap peerRank = false then .ok ((t.updateVcState peerRank).enter peerRank c true)
    else .ok { t with issuer := .idle }
  | _ => .error .notEnabled

/-- `addToPendingOpsIfRequired`, passed over for a peer connected in advance. -/
def addToPendingOpsIfRequired (t : CtranIbCtrl) : Except Fault CtranIbCtrl :=
  match t.issuer with
  | .gotVc peerRank c vc =>
    if t.connectedPeerMap peerRank then .ok { t with issuer := .direct peerRank c }
    else if t.progress.holdsMutex then .error .notEnabled
    else if vc = false ∨ (t.rankToPendingOpsMap.lookup peerRank).isSome then
      .ok { t with
        rankToPendingOpsMap := t.rankToPendingOpsMap.insert peerRank
          ((t.rankToPendingOpsMap.lookup peerRank).getD [] ++ [.ofCall peerRank c])
        issuer := .idle }
    else .ok { t with issuer := .direct peerRank c }
  | _ => .error .notEnabled

/-- The connection gets the calls. -/
def hand (t : CtranIbCtrl) (peerRank : ℕ) (cs : List VcCall) : CtranIbCtrl :=
  { t with handed := Function.update t.handed peerRank (t.handed peerRank ++ cs) }

/-- The post under the connection's own lock. -/
def postDirect (t : CtranIbCtrl) : Except Fault CtranIbCtrl :=
  match t.issuer with
  | .direct peerRank c =>
    if t.rankToVcMap peerRank = false then .error .nullVc
    else .ok { t.hand peerRank [c] with issuer := .idle }
  | _ => .error .notEnabled

/-- The start of `progressPendingOps`, which walks the map in any order. -/
def progressStart (t : CtranIbCtrl) (order : List ℕ) : Except Fault CtranIbCtrl :=
  match t.progress with
  | .idle =>
    if order.Perm t.rankToPendingOpsMap.keys then
      if order = [] then .ok t else .ok { t with progress := .scanning order [] }
    else .error .notEnabled
  | _ => .error .notEnabled

/-- One peer of the walk, or the release of the lock at its end. -/
def scan (t : CtranIbCtrl) : Except Fault CtranIbCtrl :=
  match t.progress with
  | .scanning [] [] => .ok { t with progress := .idle }
  | .scanning [] ready => .ok { t with progress := .posting ready }
  | .scanning (peerRank :: todo) ready =>
    if t.rankToVcMap peerRank then
      .ok { t with
        rankToPendingOpsMap := t.rankToPendingOpsMap.erase peerRank
        progress := .scanning todo
          (ready ++ [(peerRank, (t.rankToPendingOpsMap.lookup peerRank).getD [])]) }
    else .ok { t with progress := .scanning todo ready }
  | _ => .error .notEnabled

/-- Post the operations of one ready peer, the `i`-th; where a call fails, the function returns
and what it has not posted is gone. -/
def post (t : CtranIbCtrl) (i : ℕ) (fails : Option ℕ) : Except Fault CtranIbCtrl :=
  match t.progress with
  | .posting ready =>
    match ready[i]? with
    | none => .error .notEnabled
    | some (peerRank, pendingOps) =>
      if t.rankToVcMap peerRank = false then .error .nullVc
      else
        match pendingOps.mapM PendingOp.call with
        | none => .error .abort
        | some cs =>
          match fails with
          | some n => .ok { t.hand peerRank (cs.take (n + 1)) with progress := .idle }
          | none =>
            let rest := ready.eraseIdx i
            .ok { t.hand peerRank cs with progress := if rest = [] then .idle else .posting rest }
  | _ => .error .notEnabled

inductive Op where
  | updateVcState (peerRank : ℕ)
  | issue (peerRank : ℕ) (c : VcCall)
  | bootstrapConnect (ok : Bool)
  | addToPendingOpsIfRequired
  | postDirect
  | progressStart (order : List ℕ)
  | scan
  | post (i : ℕ) (fails : Option ℕ)
deriving DecidableEq, Repr

def step (t : CtranIbCtrl) : Op → Except Fault CtranIbCtrl
  | .updateVcState peerRank => .ok (t.updateVcState peerRank)
  | .issue peerRank c => t.issue peerRank c
  | .bootstrapConnect ok => t.bootstrapConnect ok
  | .addToPendingOpsIfRequired => t.addToPendingOpsIfRequired
  | .postDirect => t.postDirect
  | .progressStart order => t.progressStart order
  | .scan => t.scan
  | .post i fails => t.post i fails

/-- The step is one that its thread can take. -/
def WellFormed (_ : List Op) (t : CtranIbCtrl) (op : Op) : Prop := t.step op ≠ .error .notEnabled

end CtranIbCtrl
end TorchComms.CtranIb
