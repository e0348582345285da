import TorchComms.Foundation.WorkQueue
import Mathlib.Algebra.Order.Ring.Int

/-! # Work requests, completions and physical queue pairs

The part of the verbs interface that virtual queue pairs use. A physical QP carries its posted
work requests with it, as the device sees them.
-/
namespace TorchComms.Ibverbx

open Foundation

/-! ### Machine integers -/

def u32 (z : ℤ) : ℕ := (z % 2 ^ 32).toNat
def u64 (z : ℤ) : ℕ := (z % 2 ^ 64).toNat
def i32 (z : ℤ) : ℤ := Int.bmod z (2 ^ 32)

def INT_MAX : ℤ := 2 ^ 31 - 1
def INT_MIN : ℤ := -2 ^ 31

/-! ### Errors -/

def EINVAL : ℤ := 22

structure Error where
  errNum : ℤ
  errStr : String
deriving DecidableEq, Repr

/-- How a call can end without a result: an error it returns, an exception of `at`, undefined
behaviour, or a loop that exceeds its bound. -/
inductive Fault where
  | error (e : Error)
  | outOfRange
  | undefined
  | diverged
deriving DecidableEq, Repr

/-! ### Work requests -/

inductive IbvWrOpcode where
  | IBV_WR_RDMA_WRITE
  | IBV_WR_RDMA_WRITE_WITH_IMM
  | IBV_WR_SEND
  | IBV_WR_SEND_WITH_IMM
  | IBV_WR_RDMA_READ
  | IBV_WR_ATOMIC_CMP_AND_SWP
  | IBV_WR_ATOMIC_FETCH_AND_ADD
deriving DecidableEq, Repr

def IBV_SEND_SIGNALED : ℕ := 2

structure IbvSge where
  addr : ℕ
  length : ℕ
  lkey : ℕ
deriving DecidableEq, Repr

/-- `sg_list` is `none` for a null pointer; with `num_sge` at most 1 it has one entry. -/
structure IbvSendWr where
  wr_id : ℕ
  sg_list : Option IbvSge
  num_sge : ℤ
  opcode : IbvWrOpcode
  send_flags : ℕ
  imm_data : ℕ
  remote_addr : ℕ
  rkey : ℕ
deriving DecidableEq, Repr

namespace IbvSendWr

def signaled (wr : IbvSendWr) : Bool := wr.send_flags &&& IBV_SEND_SIGNALED != 0

end IbvSendWr

structure IbvRecvWr where
  wr_id : ℕ
  sg_list : Option IbvSge
  num_sge : ℤ
deriving DecidableEq, Repr

/-! ### Completions -/

inductive IbvWcStatus where
  | IBV_WC_SUCCESS
  | IBV_WC_LOC_LEN_ERR
  | IBV_WC_LOC_QP_OP_ERR
  | IBV_WC_LOC_EEC_OP_ERR
  | IBV_WC_LOC_PROT_ERR
  | IBV_WC_WR_FLUSH_ERR
  | IBV_WC_MW_BIND_ERR
  | IBV_WC_BAD_RESP_ERR
  | IBV_WC_LOC_ACCESS_ERR
  | IBV_WC_REM_INV_REQ_ERR
  | IBV_WC_REM_ACCESS_ERR
  | IBV_WC_REM_OP_ERR
  | IBV_WC_RETRY_EXC_ERR
  | IBV_WC_RNR_RETRY_EXC_ERR
  | IBV_WC_LOC_RDD_VIOL_ERR
  | IBV_WC_REM_INV_RD_REQ_ERR
  | IBV_WC_REM_ABORT_ERR
  | IBV_WC_INV_EECN_ERR
  | IBV_WC_INV_EEC_STATE_ERR
  | IBV_WC_FATAL_ERR
  | IBV_WC_RESP_TIMEOUT_ERR
  | IBV_WC_GENERAL_ERR
deriving DecidableEq, Repr

inductive IbvWcOpcode where
  | IBV_WC_SEND
  | IBV_WC_RDMA_WRITE
  | IBV_WC_RDMA_READ
  | IBV_WC_COMP_SWAP
  | IBV_WC_FETCH_ADD
  | IBV_WC_BIND_MW
  | IBV_WC_RECV
  | IBV_WC_RECV_RDMA_WITH_IMM
deriving DecidableEq, Repr

structure IbvWc where
  wr_id : ℕ := 0
  status : IbvWcStatus := .IBV_WC_SUCCESS
  opcode : IbvWcOpcode := .IBV_WC_SEND
  vendor_err : ℕ := 0
  byte_len : ℕ := 0
  imm_data : ℕ := 0
  qp_num : ℕ := 0
  src_qp : ℕ := 0
  wc_flags : ℕ := 0
  pkey_index : ℕ := 0
  slid : ℕ := 0
  sl : ℕ := 0
  dlid_path_bits : ℕ := 0
deriving DecidableEq, Repr

/-- The opcode of the completion of a send work request. -/
def wcOpcode : IbvWrOpcode → IbvWcOpcode
  | .IBV_WR_RDMA_WRITE | .IBV_WR_RDMA_WRITE_WITH_IMM => .IBV_WC_RDMA_WRITE
  | .IBV_WR_SEND | .IBV_WR_SEND_WITH_IMM => .IBV_WC_SEND
  | .IBV_WR_RDMA_READ => .IBV_WC_RDMA_READ
  | .IBV_WR_ATOMIC_CMP_AND_SWP => .IBV_WC_COMP_SWAP
  | .IBV_WR_ATOMIC_FETCH_AND_ADD => .IBV_WC_FETCH_ADD

/-! ### Physical queue pairs -/

structure PhysicalWrStatus where
  physicalWrId : ℕ
  virtualWrId : ℕ
deriving DecidableEq, Repr

/-- A posted send and the virtual work request it is a part of. -/
structure SendWqe where
  wr : IbvSendWr
  virtualWrId : ℕ
deriving DecidableEq, Repr

structure RecvWqe where
  wr : IbvRecvWr
  virtualWrId : ℕ
deriving DecidableEq, Repr

def SendWqe.status (w : SendWqe) : PhysicalWrStatus := ⟨w.wr.wr_id, w.virtualWrId⟩

def RecvWqe.status (w : RecvWqe) : PhysicalWrStatus := ⟨w.wr.wr_id, w.virtualWrId⟩

structure IbvQp where
  qp_num : ℕ
  physicalSendWrStatus_ : List PhysicalWrStatus := []
  physicalRecvWrStatus_ : List PhysicalWrStatus := []
  sq : WorkQueue SendWqe := {}
  rq : WorkQueue RecvWqe := {}
deriving DecidableEq

namespace IbvQp

/-- `postSend` and the record of it. -/
def postSend (q : IbvQp) (wr : IbvSendWr) (virtualWrId : ℕ) : IbvQp :=
  { q with
    sq := q.sq.post ⟨wr, virtualWrId⟩
    physicalSendWrStatus_ := q.physicalSendWrStatus_ ++ [⟨wr.wr_id, virtualWrId⟩] }

/-- `postRecv` and the record of it. -/
def postRecv (q : IbvQp) (wr : IbvRecvWr) (virtualWrId : ℕ) : IbvQp :=
  { q with
    rq := q.rq.post ⟨wr, virtualWrId⟩
    physicalRecvWrStatus_ := q.physicalRecvWrStatus_ ++ [⟨wr.wr_id, virtualWrId⟩] }

/-- The next completion of the send queue. -/
def completeSend (q : IbvQp) : Option (SendWqe × IbvQp) :=
  (q.sq.completeNext fun w => w.wr.signaled).map fun r => (r.1, { q with sq := r.2 })

/-- The next completion of the receive queue; every receive is reported. -/
def completeRecv (q : IbvQp) : Option (RecvWqe × IbvQp) :=
  (q.rq.completeNext fun _ => true).map fun r => (r.1, { q with rq := r.2 })

end IbvQp
end TorchComms.Ibverbx
