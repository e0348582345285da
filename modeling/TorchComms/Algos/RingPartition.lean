import TorchComms.Foundation.Cutting
import TorchComms.Foundation.MachineWords
import Mathlib.Tactic.Ring

/-! # Partitions of the AllReduce ring

The data is reduced partition by partition, each as large as the temporary chunks of all ranks. A
partition has a shard for each rank, sent chunk by chunk. Where the rest of the data is too small for
a ring of its own, the partition before it leaves it more.
-/
namespace TorchComms.Algos.AllReduceRing

open Foundation

inductive Op
  | kSendCopy
  | kSendTrans
  | kRecvTrans
  | kRecvFlush
  | kRecvRedCopy
  deriving DecidableEq, Repr

structure OpStep where
  step : ℕ := 0
  startRound : ℤ := 0
  deriving DecidableEq, Repr

structure OpRound where
  totalRounds : ℤ := 0
  ready : ℤ := 0
  post : ℤ := 0
  done : ℤ := 0
  postStep : OpStep := {}
  doneStep : OpStep := {}
  deriving DecidableEq, Repr

/-- The constant arguments, `size_t` and `int` values as they come from the caller and the
configuration variables. -/
structure AlgoArgs where
  numElements : ℕ
  rank : ℕ
  nRanks : ℕ
  chunkSize : ℕ
  numChunks : ℕ
  minShardSize : ℕ
  typeSize : ℕ
  numElements_lt : numElements < 2 ^ 64
  numElements_ge : nRanks ≤ numElements
  rank_lt : rank < nRanks
  nRanks_ge : 2 ≤ nRanks
  nRanks_lt : nRanks < 2 ^ 31
  typeSize_pos : 1 ≤ typeSize
  chunkSize_pos : 1 ≤ chunkSize
  chunkSize_lt : chunkSize < 2 ^ 64
  chunkSize_dvd : typeSize ∣ chunkSize
  numChunks_pos : 1 ≤ numChunks
  numChunks_lt : numChunks < 2 ^ 32
  minShardSize_lt : minShardSize < 2 ^ 32
  minShardSize_ge : typeSize ≤ minShardSize
  minShardSize_le : minShardSize + typeSize ≤ chunkSize * numChunks

/-- What the algorithm keeps, on the host. -/
structure AlgoContext where
  partitionNumel : ℕ := 0
  partitionOffset : ℕ := 0
  partition : ℤ := 0
  numShards : ℕ := 0
  numSteps : ℕ := 0
  shardNumel : ℕ := 0
  rightRank : ℕ
  leftRank : ℕ
  sendDataShardIdx : ℕ := 0
  recvDataShardIdx : ℕ := 0
  opRounds : Op → OpRound := fun _ => {}
  firstStepNumRounds : ℤ := 0
  recvFwdStartRound : ℤ := 0
  totalSendRounds : ℤ := 0
  totalRecvRounds : ℤ := 0
  partitionStartSendRounds : ℤ := 0
  partitionStartRecvRounds : ℤ := 0

structure RoundArgs where
  numel : ℕ
  shardId : ℕ
  shardDataChunkId : ℤ
  dataOffset : ℕ
  dataOffsetElem : ℕ
  deriving DecidableEq, Repr

namespace AlgoContext

variable (c : AlgoContext)

/-- The last shard has what remains. -/
def getShardNumel (shardId : ℕ) : ℕ :=
  if shardId = c.numShards - 1 then
    subSize c.partitionNumel (c.shardNumel * (c.numShards - 1) % 2 ^ 64)
  else c.shardNumel

def getStepShardIdx (op : Op) (step : ℕ) : ℕ :=
  let shift := c.numShards - step % c.numShards
  match op with
  | .kSendCopy | .kSendTrans => (c.sendDataShardIdx + shift) % c.numShards
  | _ => (c.recvDataShardIdx + shift) % c.numShards

end AlgoContext

namespace AlgoArgs

variable (x : AlgoArgs)

def numelPerChunk : ℕ := x.chunkSize / x.typeSize

def minPartitionNumel : ℕ := x.minShardSize * x.nRanks % 2 ^ 64 / x.typeSize

def totalTmpNumel : ℕ := x.numelPerChunk * x.numChunks % 2 ^ 64 * x.nRanks % 2 ^ 64

def countChunksPerShard (c : AlgoContext) (shardId : ℕ) : ℤ :=
  toInt ((c.getShardNumel shardId + x.numelPerChunk - 1) % 2 ^ 64 / x.numelPerChunk)

def remainNumel (c : AlgoContext) : ℕ := subSize x.numElements c.partitionOffset

/-- The first part of `updatePartitionCtx`: the size of the next partition and its shards. -/
def cutPartition (c : AlgoContext) : AlgoContext :=
  let partitionNumel :=
    if x.remainNumel c < x.totalTmpNumel then x.remainNumel c
    else if x.remainNumel c < (x.totalTmpNumel + x.minPartitionNumel) % 2 ^ 64 then
      subSize (x.remainNumel c) x.minPartitionNumel
    else x.totalTmpNumel
  { c with
    partitionNumel := partitionNumel
    numShards := x.nRanks
    shardNumel := partitionNumel / x.nRanks
    numSteps := x.nRanks * 2 - 2
    sendDataShardIdx := x.rank
    recvDataShardIdx := c.leftRank }

/-- The rounds of all steps, summed as `size_t`. -/
def sumRounds (c : AlgoContext) (op : Op) : ℕ :=
  (List.range c.numSteps).foldl
    (fun total step => (total + toSize (x.countChunksPerShard c (c.getStepShardIdx op step))) % 2 ^ 64)
    0

/-- The second part of `updatePartitionCtx`: the rounds of each operation. -/
def countRounds (c : AlgoContext) : AlgoContext :=
  let totalSendRounds := toInt (x.sumRounds c .kSendCopy)
  let totalRecvRounds := toInt (x.sumRounds c .kRecvRedCopy)
  let first := x.countChunksPerShard c c.sendDataShardIdx
  { c with
    opRounds := fun
      | .kSendCopy => { totalRounds := first, ready := first }
      | .kSendTrans => { totalRounds := totalSendRounds }
      | .kRecvTrans => { totalRounds := totalRecvRounds, ready := -1 }
      | .kRecvFlush => { totalRounds := totalRecvRounds }
      | .kRecvRedCopy => { totalRounds := totalRecvRounds }
    firstStepNumRounds := first
    recvFwdStartRound := 0
    totalSendRounds := totalSendRounds
    totalRecvRounds := totalRecvRounds }

def updatePartitionCtx (c : AlgoContext) : AlgoContext := x.countRounds (x.cutPartition c)

@[simp] theorem updatePartitionCtx_partitionOffset (c : AlgoContext) :
    (x.updatePartitionCtx c).partitionOffset = c.partitionOffset := by
  cases c
  rfl

@[simp] theorem updatePartitionCtx_partitionNumel (c : AlgoContext) :
    (x.updatePartitionCtx c).partitionNumel = (x.cutPartition c).partitionNumel := rfl

def setupAlgoCtxImpl : AlgoContext where
  rightRank := (x.rank + 1) % x.nRanks
  leftRank := (x.rank + x.nRanks - 1) % x.nRanks

def getRoundArgs (c : AlgoContext) (op : Op) (round : ℤ) (opStep : OpStep) : RoundArgs :=
  let shardId := c.getStepShardIdx op opStep.step
  let shardNumel := c.getShardNumel shardId
  let roundInStep := round - opStep.startRound
  let numel :=
    if toSize (roundInStep + 1) * x.numelPerChunk % 2 ^ 64 ≤ shardNumel then x.numelPerChunk
    else subSize shardNumel (x.numelPerChunk * toSize roundInStep % 2 ^ 64)
  let dataOffsetElem := (c.partitionOffset + shardId * c.shardNumel +
    toSize roundInStep * x.numelPerChunk) % 2 ^ 64
  { numel := numel
    shardId := shardId
    shardDataChunkId := roundInStep
    dataOffset := dataOffsetElem * x.typeSize % 2 ^ 64
    dataOffsetElem := dataOffsetElem }

end AlgoArgs

def updatePartitionDone (c : AlgoContext) : AlgoContext :=
  { c with
    partitionOffset := (c.partitionOffset + c.partitionNumel) % 2 ^ 64
    partition := c.partition + 1
    partitionStartSendRounds := c.partitionStartSendRounds + (c.opRounds .kSendTrans).totalRounds
    partitionStartRecvRounds := c.partitionStartRecvRounds + (c.opRounds .kRecvTrans).totalRounds }

@[simp] theorem updatePartitionDone_partitionOffset (c : AlgoContext) :
    (updatePartitionDone c).partitionOffset = (c.partitionOffset + c.partitionNumel) % 2 ^ 64 := rfl

/-- The loop over the partitions, with the context of each, or nothing where it does not end. -/
def partitions (x : AlgoArgs) : ℕ → AlgoContext → Option (List AlgoContext)
  | 0, _ => none
  | fuel + 1, c =>
    if c.partitionOffset < x.numElements then
      (partitions x fuel (updatePartitionDone (x.updatePartitionCtx c))).map
        (x.updatePartitionCtx c :: ·)
    else some []

end TorchComms.Algos.AllReduceRing
