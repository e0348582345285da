import TorchComms.Algos.LocalReduce
import TorchComms.Foundation.RowLoopsExact

/-! # Copies on the device

The loops of the threads that copy a buffer: in groups of thread blocks, in one thread block, and in
warps. Starts and strides are 32 bits wide, indices 64 bits.
-/
namespace TorchComms.Algos.DeviceCopies
open Foundation
open LocalReduce (u32 roundDown kWarpSize)

def u64 (x : ℕ) : ℕ := x % 2 ^ 64

/-- `copyUnroll` by a thread. -/
def copyUnroll (unroll16 sizeofT blockDim count groupIdx nGroups threadIdx : ℕ) : ThreadLoops :=
  let kTPer16Bytes := 16 / sizeofT
  let kUnroll := kTPer16Bytes * unroll16
  let numPerBlock := u32 (blockDim * kUnroll)
  let limitUnroll := roundDown count numPerBlock
  { modulus := 2 ^ 64
    count := count
    limit := limitUnroll
    start := u32 (groupIdx * numPerBlock + threadIdx)
    stride := u32 (nGroups * numPerBlock)
    unroll := kUnroll
    offset := fun j => u32 (j * blockDim)
    rest :=
      if count ≠ limitUnroll ∧ groupIdx = limitUnroll / numPerBlock % nGroups then
        some (u64 (limitUnroll + threadIdx), blockDim)
      else none }

/-- `copy` by a thread of a group. -/
def copy (sizeofT blockDim count groupIdx nGroups threadIdx : ℕ) : ThreadLoops :=
  if nGroups ≤ groupIdx then .idle
  else copyUnroll 4 sizeofT blockDim count groupIdx nGroups threadIdx

/-- `copy` of 16-byte vectors by a thread of the only thread block. -/
def copyVectors (blockDim count threadIdx : ℕ) : ThreadLoops :=
  let kUnroll := 8
  let blockSize := u32 (blockDim * kUnroll)
  let limitCount := roundDown count blockSize
  { modulus := 2 ^ 64
    count := count
    limit := limitCount
    start := threadIdx
    stride := blockSize
    unroll := kUnroll
    offset := fun j => u32 (j * blockDim)
    rest := some (u64 (limitCount + threadIdx), blockDim) }

/-- `copyWarp` by a thread. The sum comes before the conjunction. -/
def copyWarp (count warpId numWarps threadIdx : ℕ) : ThreadLoops :=
  let laneId := u32 (warpId * kWarpSize + threadIdx) &&& (kWarpSize - 1)
  { modulus := 2 ^ 64
    count := count
    limit := count
    start := laneId
    stride := kWarpSize * numWarps
    unroll := 1
    offset := fun _ => 0
    rest := none }

/-- What one call of `copy` is asked for: how many elements of which size. -/
structure Job where
  sizeofT : ℕ
  count : ℕ
  sizeofT_dvd : sizeofT ∣ 16
  count_lt : count < 2 ^ 64

namespace Job

variable (J : Job)

def canCopy16 (sendbuff recvbuff : ℕ) : Bool :=
  let sendBuffAligned := sendbuff % 16 = 0
  let recvBuffAligned := recvbuff % 16 = 0
  let sizeAligned := u64 (J.count * J.sizeofT) % 16 = 0
  sendBuffAligned && recvBuffAligned && sizeAligned

/-- The same in 16-byte vectors. -/
def vectors : Job where
  sizeofT := 16
  count := u64 (J.count * J.sizeofT) / 16
  sizeofT_dvd := Nat.dvd_refl 16
  count_lt := (Nat.div_le_self _ _).trans_lt (Nat.mod_lt _ (by decide))

/-- Which path `ctranKernCopy` takes, if any. -/
def ctranKernCopy (sendbuff recvbuff : ℕ) : Option Job :=
  if sendbuff ≠ recvbuff then
    if J.canCopy16 sendbuff recvbuff then some J.vectors else some J
  else none

end Job

def bytes (nbytes : ℕ) (h : nbytes < 2 ^ 64) : Job := ⟨1, nbytes, Nat.one_dvd 16, h⟩

/-- Which path the copy of `ctranKernMultiPutNotify` takes. -/
def putCopy (sendbuff recvbuff nbytes : ℕ) (h : nbytes < 2 ^ 64) : Option Job :=
  if sendbuff ≠ recvbuff ∧ 0 < nbytes then
    if (bytes nbytes h).canCopy16 sendbuff recvbuff then
      some ⟨16, nbytes / 16, Nat.dvd_refl 16, (Nat.div_le_self _ _).trans_lt h⟩
    else some (bytes nbytes h)
  else none

/-! ## What a copy should do -/

/-- The thread blocks that copy. -/
structure Grid where
  blockDim : ℕ
  nGroups : ℕ
  warps : kWarpSize ∣ blockDim
  blockDim_pos : 0 < blockDim
  blockDim_lt : blockDim < 2 ^ 32
  nGroups_pos : 0 < nGroups

namespace Job

def loops (J : Job) (G : Grid) (groupIdx threadIdx : ℕ) : ThreadLoops :=
  copy J.sizeofT G.blockDim J.count groupIdx G.nGroups threadIdx

/-- The groups write every index once, and other groups write nothing. -/
structure Copied (J : Job) (G : Grid) : Prop where
  divides : 0 < u32 (G.blockDim * (16 / J.sizeofT * 4))
  once : VisitsOnce (J.loops G) G.nGroups G.blockDim J.count
  others : ∀ groupIdx ≥ G.nGroups, ∀ threadIdx slot, ¬ (J.loops G groupIdx threadIdx).Runs slot

/-- The byte belongs to an element that is written. -/
def Writes (J : Job) (G : Grid) (b : ℕ) : Prop :=
  ∃ v : LoopVisit, v.Runs (J.loops G) G.nGroups G.blockDim ∧ v.cell (J.loops G) = b / J.sizeofT

/-- A path that stands for the copy of the elements. -/
structure StandsFor (K J : Job) (G : Grid) : Prop where
  path : K.Copied G
  elements : J.Copied G
  same : ∀ b, K.Writes G b ↔ J.Writes G b

end Job

structure VectorsCopied (G : Grid) (count : ℕ) : Prop where
  divides : 0 < u32 (G.blockDim * 8)
  once : VisitsOnce (fun _ => copyVectors G.blockDim count) 1 G.blockDim count

/-- The lanes of all warps, wherever these are in the thread block, write every index. -/
structure WarpsCopy (count numWarps : ℕ) (place : ℕ → ℕ) : Prop where
  ends : ∀ warpId < numWarps, ∀ lane < kWarpSize,
    (copyWarp count warpId numWarps (place warpId * kWarpSize + lane)).Ends
  covers : ∀ x < count, ∃ warpId < numWarps, ∃ lane < kWarpSize, ∃ slot,
    (copyWarp count warpId numWarps (place warpId * kWarpSize + lane)).Runs slot ∧
      (copyWarp count warpId numWarps (place warpId * kWarpSize + lane)).cell slot = x

/-- What the copies are called with. The number of threads of the warps is an `int`. -/
structure Call where
  grid : Grid
  job : Job
  numWarps : ℕ
  place : ℕ → ℕ
  sendbuff : ℕ
  recvbuff : ℕ
  numWarps_pos : 0 < numWarps
  numWarps_lt : kWarpSize * numWarps < 2 ^ 31

/-- Every copy copies its range. `ctranKernMultiPutNotify` copies `count` bytes. -/
structure Call.Correct (c : Call) : Prop where
  groups : c.job.Copied c.grid
  vectors : VectorsCopied c.grid c.job.count
  warps : WarpsCopy c.job.count c.numWarps c.place
  kernCopy : ∀ K ∈ c.job.ctranKernCopy c.sendbuff c.recvbuff, K.StandsFor c.job c.grid
  put : ∀ K ∈ putCopy c.sendbuff c.recvbuff c.job.count c.job.count_lt,
    K.StandsFor (bytes c.job.count c.job.count_lt) c.grid

end TorchComms.Algos.DeviceCopies
