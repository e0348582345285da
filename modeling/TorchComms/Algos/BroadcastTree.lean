import TorchComms.Mapper.Backend
import Mathlib.Algebra.Order.Group.Nat
import Mathlib.Data.Nat.Log

/-! # The binomial tree broadcast

`setupPlan` prepares the elements with which the kernel takes part in the puts and notifications,
and `impl`, which runs on the GPE thread, exchanges handles with the tree neighbours, waits for the
data of the parent and puts it to the children. Both derive the neighbours from the distance to the
root.
-/
namespace TorchComms.Algos.Broadcast

open Mapper

inductive Fault
  /-- an `int` that does not fit -/
  | overflow
  /-- a failed `FB_CHECKABORT` -/
  | abort
  /-- the loop did not end -/
  | diverged
  deriving DecidableEq, Repr

/-- An `int` that was computed. -/
def int (x : ℕ) : Except Fault ℕ := if x < 2 ^ 31 then .ok x else .error .overflow

/-- One call of the broadcast, as all ranks make it. -/
structure Call where
  nRanks : ℕ
  root : ℕ
  root_lt : root < nRanks
  nRanks_lt : nRanks < 2 ^ 31
  count : ℕ
  typeSize : ℕ
  isDevice : Bool
  recvbuff : ℕ → ℕ
  localRank : ℕ → ℕ
  backends : ℕ → PeerBackends nRanks
  NVL_BROADCAST_CHUNK_SIZE : ℕ
  NVL_BROADCAST_MAX_NUM_THREAD_BLOCKS : ℕ
  threadBlockSize : ℕ
  UNPACK_NUM_THREAD_BLOCKS : ℕ
  UNPACK_THREAD_BLOCK_SIZE : ℕ

structure PutNotify where
  sendbuff : ℕ
  nbytes : ℕ
  peerLocalRank : ℕ
  ngroups : ℕ
  notify : Bool
  deriving DecidableEq, Repr

structure WaitNotify where
  peerLocalRank : ℕ
  recvbuff : ℕ
  nbytes : ℕ
  ngroups : ℕ
  deriving DecidableEq, Repr

inductive KernelType
  | BROADCAST
  | BROADCAST_UNPACK
  deriving DecidableEq, Repr

/-- What `setupPlan` leaves in the operation and in the kernel's configuration. -/
structure Plan where
  putNotifyMap : List (ℕ × PutNotify) := []
  waitNotifyMap : List (ℕ × WaitNotify) := []
  putNotifyList : List PutNotify := []
  waitNotifyList : List WaitNotify := []
  unpackConsumer : Bool := false
  launch : Option (ℕ × ℕ) := none
  type : KernelType := .BROADCAST
  deriving DecidableEq, Repr, Inhabited

namespace Call

variable (c : Call)

def sendSize : ℕ := c.count * c.typeSize % 2 ^ 64

/-- `op->recv.peerRank` of an operation that is a broadcast: the two share their memory, and what
lies there is the upper half of `op->broadcast.count`. -/
def peerRank : ℤ := (BitVec.ofNat 32 (c.count / 2 ^ 32)).toInt

def getBackend (myRank : ℕ) (rank : ℤ) : Except Fault CtranMapperBackend :=
  match (c.backends myRank).getBackend rank with
  | some backend => .ok backend
  | none => .error .abort

def getNumGroups (nbytes : ℕ) : ℕ :=
  min (max 1 (nbytes / c.NVL_BROADCAST_CHUNK_SIZE)) c.NVL_BROADCAST_MAX_NUM_THREAD_BLOCKS

end Call

/-- The greatest power of two that is not above the argument. -/
def floorPow2 (x : ℕ) : ℕ := if x = 0 then 0 else 1 <<< x.log2

namespace Call

variable (c : Call)

def rootDist (myRank : ℕ) : Except Fault ℕ := do
  let dist ← int (myRank + c.nRanks - c.root)
  return dist % c.nRanks

/-- The rank that lies `recvOffset` before this one. -/
def recvFrom (myRank recvOffset : ℕ) : Except Fault ℕ := do
  let rank ← int (myRank + c.nRanks - recvOffset)
  return rank % c.nRanks

/-! ### The plan -/

/-- The element of the kernel for the receive, and whether the kernel unpacks what arrives. -/
def planRecv (myRank recvOffset : ℕ) : Except Fault Plan := do
  let recvFrom ← c.recvFrom myRank recvOffset
  let hasTcpDmRecv := (← c.getBackend myRank recvFrom) = .TCPDM
  let backend ← c.getBackend myRank c.peerRank
  let elem : WaitNotify :=
    { peerLocalRank := c.localRank recvFrom
      recvbuff := c.recvbuff myRank
      nbytes := c.sendSize
      ngroups := c.getNumGroups c.sendSize }
  return {
    waitNotifyMap := if requiresRecvNotify backend then [(recvFrom, elem)] else []
    waitNotifyList :=
      if requiresRecvNotify backend ∧ requiresPostRecvNotify backend then [elem] else []
    unpackConsumer := true
    type := if hasTcpDmRecv then .BROADCAST_UNPACK else .BROADCAST }

/-- The elements of the kernel for the puts to the children. -/
def planPuts (myRank rootDist nGroups : ℕ) : ℕ → ℕ → Except Fault (List (ℕ × PutNotify))
  | 0, _ => .error .diverged
  | fuel + 1, sendOffset => do
    let reach ← int (rootDist + sendOffset)
    if reach < c.nRanks then
      let rank ← int (myRank + sendOffset)
      let sendTo := rank % c.nRanks
      let next ← int (sendOffset * 2)
      let backend ← c.getBackend myRank sendTo
      let rest ← planPuts myRank rootDist nGroups fuel next
      let elem : PutNotify :=
        { sendbuff := c.recvbuff myRank
          nbytes := c.sendSize
          peerLocalRank := c.localRank sendTo
          ngroups := nGroups
          notify := true }
      return if backend = .NVL then (sendTo, elem) :: rest else rest
    else return []

/-- An `int` can be doubled fewer times than this. -/
def rounds : ℕ := 32

def setupPlan (myRank : ℕ) : Except Fault Plan := do
  let rootDist ← c.rootDist myRank
  let recvOffset := floorPow2 rootDist
  let sendOffset ← int (recvOffset * 2)
  if c.sendSize = 0 ∨ c.nRanks = 1 then return {}
  let nGroups := c.getNumGroups c.sendSize
  let maxNumBlocks := max 1 nGroups
  let plan ← if myRank ≠ c.root then c.planRecv myRank recvOffset else pure {}
  let puts ← c.planPuts myRank rootDist nGroups rounds (if myRank ≠ c.root then sendOffset else 1)
  return { plan with
    putNotifyMap := puts
    putNotifyList := puts.map Prod.snd
    launch :=
      if plan.type = .BROADCAST_UNPACK then
        some (c.UNPACK_NUM_THREAD_BLOCKS, c.UNPACK_THREAD_BLOCK_SIZE)
      else if puts ≠ [] then some (maxNumBlocks, c.threadBlockSize)
      else none }

end Call

/-- A broadcast of host memory launches no kernel, and nothing is planned for it. -/
def Call.plan (c : Call) (myRank : ℕ) : Except Fault Plan :=
  if c.isDevice then c.setupPlan myRank else .ok {}

/-! ### The execution -/

/-- The kernel element of a neighbour. Where it is `missing`, `impl` warns that it was expecting
one and that something bad probably happened, and goes on without. -/
inductive Lookup (α : Type)
  | notNeeded
  | found (elem : α)
  | missing
  deriving DecidableEq, Repr

def Lookup.needed {α : Type} : Lookup α → Bool
  | .notNeeded => false
  | .found _ | .missing => true

def lookUp {α : Type} (map : List (ℕ × α)) (needed : Bool) (peer : ℕ) : Lookup α :=
  if needed then
    match map.lookup peer with
    | some elem => .found elem
    | none => .missing
  else .notNeeded

/-- What `impl` does: the rank that it sends its handle to and waits for, and the ranks that it
receives handles from and puts to, in order. -/
structure Exec where
  parent : Option (ℕ × Lookup WaitNotify) := none
  irecvCtrl : List ℕ := []
  iputs : List (ℕ × Lookup PutNotify) := []
  deriving DecidableEq, Repr, Inhabited

namespace Call

variable (c : Call)

def recvCtrls (myRank rootDist : ℕ) : ℕ → ℕ → Except Fault (List ℕ)
  | 0, _ => .error .diverged
  | fuel + 1, sendOffset => do
    let reach ← int (rootDist + sendOffset)
    if reach < c.nRanks then
      let rank ← int (myRank + sendOffset)
      let sendTo := rank % c.nRanks
      let next ← int (sendOffset * 2)
      let rest ← recvCtrls myRank rootDist fuel next
      return sendTo :: rest
    else return []

def iput (plan : Plan) (myRank peer : ℕ) : Except Fault (ℕ × Lookup PutNotify) := do
  let backend ← c.getBackend myRank peer
  return (peer, lookUp plan.putNotifyMap (c.isDevice ∧ backend = .NVL) peer)

def impl (plan : Plan) (myRank : ℕ) : Except Fault Exec := do
  let rootDist ← c.rootDist myRank
  let recvOffset := floorPow2 rootDist
  let sendOffsetProto ← if myRank = c.root then .ok 1 else int (recvOffset * 2)
  let isLeaf ← if myRank ≠ c.root then do
      let reach ← int (rootDist + sendOffsetProto)
      pure (decide (c.nRanks ≤ reach))
    else pure false
  if c.nRanks = 1 then return {}
  let parent ← c.recvFrom myRank recvOffset
  let recv ← if myRank ≠ c.root then do
      let backend ← c.getBackend myRank parent
      pure (some (parent, lookUp plan.waitNotifyMap (c.isDevice ∧ requiresRecvNotify backend) parent))
    else pure none
  let peers ← if isLeaf then pure []
    else c.recvCtrls myRank rootDist rounds sendOffsetProto
  let iputs ← peers.mapM (c.iput plan myRank)
  return { parent := recv, irecvCtrl := peers, iputs := iputs }

end Call
end TorchComms.Algos.Broadcast
