import TorchComms.Algos.DeviceCopies
import TorchComms.Foundation.OwnedCells
import TorchComms.Foundation.Range

/-! # Broadcasts on the device

One algorithm loads a part of the source and stores it to all destinations, with an `int` count and
32-bit indices. The other copies the whole source to one destination after another.
-/
namespace TorchComms.Algos.DeviceBcast
open Foundation
open LocalReduce (u32 roundDown CTRAN_MAX_NVL_PEERS)
open DeviceCopies (Job)

def UnrollSize : ℕ := 8

/-- An `int` in an operation with an `unsigned int`. -/
def asUnsigned (x : ℤ) : ℕ := (x % 2 ^ 32).toNat

structure CtranAlgoDevBcastArg where
  src : ℕ
  dsts : ℕ → ℕ
  nvectors : ℕ
  count : ℕ
  sizeofT : ℕ
  nvectors_pos : 0 < nvectors
  nvectors_le : nvectors ≤ CTRAN_MAX_NVL_PEERS
  count_lt : count < 2 ^ 64
  sizeofT_dvd : sizeofT ∣ 16
  apart : ∀ v < nvectors, ∀ v' < nvectors, v ≠ v' →
    Range.Apart ⟨dsts v, count * sizeofT⟩ ⟨dsts v', count * sizeofT⟩
  source : ∀ v < nvectors,
    dsts v = src ∨ Range.Apart ⟨dsts v, count * sizeofT⟩ ⟨src, count * sizeofT⟩

/-- The thread blocks, with the limit of the device on their size. -/
structure Grid where
  blockDim : ℕ
  nGroups : ℕ
  blockDim_pos : 0 < blockDim
  blockDim_le : blockDim ≤ 1024
  nGroups_pos : 0 < nGroups

/-- `bcastUnroll` by a thread. -/
def bcastUnroll (sizeofT : ℕ) (count : ℤ) (blockDim nGroups groupIdx threadIdx : ℕ) :
    ThreadLoops :=
  let kTper16Bytes := 16 / sizeofT
  let kUnroll := kTper16Bytes * UnrollSize
  let numPerBlock := u32 (blockDim * kUnroll)
  let limitUnroll := roundDown (asUnsigned count) numPerBlock
  { modulus := 2 ^ 32
    count := asUnsigned count
    limit := limitUnroll
    start := u32 (groupIdx * numPerBlock + threadIdx)
    stride := u32 (nGroups * numPerBlock)
    unroll := kUnroll
    offset := fun j => u32 (j * blockDim)
    rest := some (u32 (limitUnroll + blockDim * groupIdx + threadIdx), u32 (nGroups * blockDim)) }

/-- What the threads do for one destination: the size of what they load and store, and their
loops. -/
structure Pass where
  dst : ℕ
  size : ℕ
  loops : ℕ → ℕ → ThreadLoops

def Pass.none : Pass := ⟨0, 0, fun _ _ => .idle⟩

inductive BcastAlgo
  | kDefaultBcast
  | kMultiPutBcast
deriving DecidableEq

namespace CtranAlgoDevBcastArg

variable (A : CtranAlgoDevBcastArg) (G : Grid)

def job : Job := ⟨A.sizeofT, A.count, A.sizeofT_dvd, A.count_lt⟩

/-- The test of `bcast`, on the count as an `int`. -/
def canCopy16Byte : Bool :=
  (A.src % 16 = 0 && toSize (toInt A.count) * A.sizeofT % 2 ^ 64 % 16 = 0) &&
    (List.range A.nvectors).all fun i => A.dsts i % 16 = 0

/-- The size and the loops of `bcast`, which are those of every destination. -/
def bcast (dst : ℕ) : Pass :=
  let count := toInt A.count
  if A.canCopy16Byte then
    let kTperUint4 := 16 / A.sizeofT
    ⟨dst, 16, bcastUnroll 16 (count.tdiv kTperUint4) G.blockDim G.nGroups⟩
  else ⟨dst, A.sizeofT, bcastUnroll A.sizeofT count G.blockDim G.nGroups⟩

/-- One turn of the loop of `multiPutBcast`. -/
def putTo (peer : ℕ) : Option Pass :=
  if A.src ≠ A.dsts peer ∧ 0 < A.count then
    let path := if A.job.canCopy16 A.src (A.dsts peer) then A.job.vectors else A.job
    some ⟨A.dsts peer, path.sizeofT,
      fun groupIdx => DeviceCopies.copy path.sizeofT G.blockDim path.count groupIdx G.nGroups⟩
  else none

def multiPutBcast (localRank : ℕ) : List Pass :=
  (List.range A.nvectors).filterMap fun i => A.putTo G ((localRank + i) % A.nvectors)

/-- What `ctranKernBcast` does with the data. -/
def ctranKernBcast (localRank : ℕ) : BcastAlgo → List Pass
  | .kDefaultBcast => (List.range A.nvectors).map fun v => A.bcast G (A.dsts v)
  | .kMultiPutBcast => A.multiPutBcast G localRank

end CtranAlgoDevBcastArg

/-! ## The bytes that are copied -/

/-- One byte of what a thread loads and stores at one point of its loops, in one of the passes. -/
structure ByteCopy where
  pass : ℕ
  visit : LoopVisit
  byte : ℕ
  deriving DecidableEq

namespace ByteCopy

variable (ps : List Pass) (G : Grid) (c : ByteCopy)

def of : Pass := ps.getD c.pass .none

def Runs : Prop :=
  c.pass < ps.length ∧ c.visit.Runs (c.of ps).loops G.nGroups G.blockDim ∧ c.byte < (c.of ps).size

def offset : ℕ := c.visit.cell (c.of ps).loops * (c.of ps).size + c.byte

end ByteCopy

/-- The byte copies of a broadcast, by their addresses. -/
def copies (ps : List Pass) (src : ℕ) : Copies ByteCopy ℕ where
  source := fun c => src + c.offset ps
  target := fun c => (c.of ps).dst + c.offset ps

/-- All loops end, and the bytes that are stored through a destination are its `nbytes`. -/
structure Pass.Fills (P : Pass) (G : Grid) (nbytes : ℕ) : Prop where
  ends : ∀ g < G.nGroups, ∀ t < G.blockDim, (P.loops g t).Ends
  covers : ∀ b < nbytes, ∃ v : LoopVisit, v.Runs P.loops G.nGroups G.blockDim ∧
    v.cell P.loops = b / P.size
  inside : ∀ v : LoopVisit, v.Runs P.loops G.nGroups G.blockDim →
    (v.cell P.loops + 1) * P.size ≤ nbytes

/-- No two points of the loops of all threads store to the same place. -/
def Pass.Once (P : Pass) (G : Grid) : Prop :=
  ∀ v v' : LoopVisit, v.Runs P.loops G.nGroups G.blockDim →
    v'.Runs P.loops G.nGroups G.blockDim → v.cell P.loops = v'.cell P.loops → v = v'

namespace CtranAlgoDevBcastArg

variable (A : CtranAlgoDevBcastArg) (G : Grid)

def nbytes : ℕ := A.count * A.sizeofT

/-- In whatever order the loads and stores of all threads take place, every destination then holds
what the source held, and everything else is as it was. -/
def Outcome (ps : List Pass) : Prop :=
  ∀ (α : Type) (s : Copying ByteCopy ℕ α) (trace : List (CopyEvent ByteCopy)),
    Copies.Ordered (ByteCopy.Runs ps G) trace →
      (∀ v < A.nvectors, ∀ b < A.nbytes,
        ((copies ps A.src).final s trace).mem (A.dsts v + b) = s.mem (A.src + b)) ∧
      ∀ a, (∀ v < A.nvectors, ∀ b < A.nbytes, a ≠ A.dsts v + b) →
        ((copies ps A.src).final s trace).mem a = s.mem a

structure Delivers (localRank : ℕ) (algo : BcastAlgo) : Prop where
  fills : ∀ P ∈ A.ctranKernBcast G localRank algo, P.Fills G A.nbytes
  outcome : A.Outcome G (A.ctranKernBcast G localRank algo)

def Once (localRank : ℕ) (algo : BcastAlgo) : Prop :=
  ∀ P ∈ A.ctranKernBcast G localRank algo, P.Once G

end CtranAlgoDevBcastArg

end TorchComms.Algos.DeviceBcast
