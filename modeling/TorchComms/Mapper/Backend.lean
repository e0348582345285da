import Mathlib.Data.Int.Notation
import Mathlib.Data.Nat.Notation

/-! # The backends of a mapper

The mapper of a rank reaches a peer over NVLink where that is supported, and else over the network
backend that it has.
-/
namespace TorchComms.Mapper

inductive CtranMapperBackend
  | UNSET
  | IB
  | NVL
  | SOCKET
  | TCPDM
  deriving DecidableEq, Repr

/-- The backends of one rank's mapper. The NVLink backend knows of every rank whether it is
supported. -/
structure PeerBackends (nRanks : ℕ) where
  ctranNvl : Option (Fin nRanks → Bool)
  ctranIb : Bool
  ctranSock : Bool
  ctranTcpDm : Bool

namespace PeerBackends

variable {nRanks : ℕ}

/-- The backend of a rank that is not reached over NVLink. -/
def network (m : PeerBackends nRanks) : CtranMapperBackend :=
  if m.ctranIb then .IB
  else if m.ctranSock then .SOCKET
  else if m.ctranTcpDm then .TCPDM
  else .UNSET

/-- `getBackend`. The NVLink backend aborts when it is asked about a number that is no rank. -/
def getBackend (m : PeerBackends nRanks) (rank : ℤ) : Option CtranMapperBackend :=
  match m.ctranNvl with
  | none => some m.network
  | some isSupported =>
    if h : 0 ≤ rank ∧ rank.toNat < nRanks then
      if isSupported ⟨rank.toNat, h.2⟩ then some .NVL else some m.network
    else none

end PeerBackends

def requiresRecvNotify (backend : CtranMapperBackend) : Bool :=
  backend = .NVL ∨ backend = .TCPDM

def requiresPostRecvNotify (backend : CtranMapperBackend) : Bool :=
  backend ≠ .TCPDM

theorem PeerBackends.exists_getBackend {nRanks : ℕ} (m : PeerBackends nRanks) {r : ℕ} (hr : r < nRanks) :
    ∃ b, m.getBackend r = some b := by
  unfold getBackend
  cases m.ctranNvl with
  | none => exact ⟨_, rfl⟩
  | some isSupported =>
    simp only [Int.natCast_nonneg, Int.toNat_natCast, hr, and_self, ↓reduceDIte]
    split <;> exact ⟨_, rfl⟩

end TorchComms.Mapper
