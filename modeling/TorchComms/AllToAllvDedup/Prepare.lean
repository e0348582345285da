import TorchComms.Foundation.Cutting
import TorchComms.Foundation.Scatter
import Mathlib.Data.Nat.Bitwise

/-! # Counting the blocks of a batch

Every rank counts the blocks that it sends to each bucket, each rank and each node, in a packed array
that it exchanges with its rail. Then each rank tells the ranks of its node what they receive from
the rail, and they lay out the received blocks.
-/
namespace TorchComms.AllToAllvDedup

open Foundation

def MAX_NUM_RECV_BUCKETS : ℕ := 16

/-- The ranks, node by node, and the persistent arguments. -/
structure PrepareConfig where
  nNodes : ℕ
  nLocalRanks : ℕ
  totalNumSendBlocks : ℕ
  blockCount : ℕ
  blockNumRecvBuckets : ℕ
  numRecvBuckets : ℕ
  nNodes_pos : 1 ≤ nNodes
  nLocalRanks_pos : 1 ≤ nLocalRanks
  numRecvBuckets_pos : 1 ≤ numRecvBuckets
  numRecvBuckets_le : numRecvBuckets ≤ MAX_NUM_RECV_BUCKETS

namespace PrepareConfig

variable (c : PrepareConfig)

def nRanks : ℕ := c.nNodes * c.nLocalRanks

def node (rank : ℕ) : ℕ := rank / c.nLocalRanks

def localRank (rank : ℕ) : ℕ := rank % c.nLocalRanks

def localRankToRank (localRank node : ℕ) : ℕ := node * c.nLocalRanks + localRank

def bucketToRank (bucket : ℕ) : ℕ := bucket / c.numRecvBuckets

def nLocalBuckets : ℕ := c.numRecvBuckets * c.nLocalRanks

/-- The counts for a node: one for each bucket, one for each rank and one for the node. -/
def countPerNode : ℕ := c.nLocalBuckets + c.nLocalRanks + 1

def countPerRank : ℕ := c.nNodes * c.countPerNode

/-- The buckets of all blocks of a rank. -/
def numListed : ℕ := c.totalNumSendBlocks * c.blockNumRecvBuckets

end PrepareConfig

/-- What the ranks send: the buckets of each block of each rank. -/
structure Batch (c : PrepareConfig) where
  blockRecvBuckets : ℕ → ℕ → ℕ
  lt : ∀ rank < c.nRanks, ∀ i < c.numListed,
    blockRecvBuckets rank i < c.nRanks * c.numRecvBuckets

/-- The buffers of a rank and what `prepare` returns there. -/
structure PrepareRank where
  blockRecvBucketsH : ℕ → ℕ
  tmpNumSendBlocksBuffH : ℕ → ℕ
  tmpNumRecvBlocksBuff : ℕ → ℕ
  xnodeInputSplits : ℕ → ℕ
  xnodeOutputSplits : ℕ → ℕ
  localInputSplits : ℕ → ℕ
  numForwardBlocks : ℕ → ℕ
  numRecvBlocks : ℕ → ℕ
  recvOffsets : ℕ → ℕ
  totalNumRecvBlocks : ℕ

/-! ### The counts of the own blocks -/

def increment (m : ℕ → ℕ) (i n : ℕ) : ℕ → ℕ := Function.update m i (m i + n)

/-- Count at `i`, unless the flag of `k` is set. -/
def countOnce (flags : ℕ → Bool) (k : ℕ) (m : ℕ → ℕ) (i : ℕ) : (ℕ → ℕ) × (ℕ → Bool) :=
  if flags k then (m, flags) else (increment m i 1, Function.update flags k true)

/-- Where the loop over the buckets of a block is. -/
structure BlockCount where
  tmpNumSendBlocksBuffH : ℕ → ℕ
  numSendBlocksToNode : ℕ → Bool
  numSendBlocksToRank : ℕ → Bool

namespace PrepareConfig

variable (c : PrepareConfig)

/-- Count a block for one of its buckets, in the array at `base`: at the bucket, and once for the
node and once for the rank. -/
def countBucket (base : ℕ) (s : BlockCount) (recvBucket : ℕ) : BlockCount :=
  let recvRank := c.bucketToRank recvBucket
  let recvLocalBucket := recvBucket &&& (c.nLocalBuckets - 1)
  let nodeId := c.node recvRank
  let offset := base + nodeId * (c.nLocalBuckets + c.nLocalRanks + 1)
  let m := increment s.tmpNumSendBlocksBuffH (offset + recvLocalBucket) 1
  let (m, toNode) := countOnce s.numSendBlocksToNode nodeId m
    (offset + c.nLocalBuckets + c.nLocalRanks)
  let (m, toRank) := countOnce s.numSendBlocksToRank recvRank m
    (offset + c.nLocalBuckets + c.localRank recvRank)
  ⟨m, toNode, toRank⟩

def countBlock (base : ℕ) (blockRecvBucketsH : ℕ → ℕ) (m : ℕ → ℕ) (b : ℕ) : ℕ → ℕ :=
  (((List.range c.blockNumRecvBuckets).map fun r =>
      blockRecvBucketsH (b * c.blockNumRecvBuckets + r)).foldl (c.countBucket base)
    ⟨m, fun _ => false, fun _ => false⟩).tmpNumSendBlocksBuffH

def computeNumSendBlocks (rank : ℕ) (x : PrepareRank) : PrepareRank :=
  let myNode := c.node rank
  let blockRecvBucketsH := fun i => x.blockRecvBucketsH (myNode * c.numListed + i)
  let base := myNode * c.nNodes * (c.nLocalBuckets + c.nLocalRanks + 1)
  let m := blit x.tmpNumSendBlocksBuffH base (c.nNodes * (c.nLocalBuckets + c.nLocalRanks + 1))
    fun _ => 0
  let m := (List.range c.totalNumSendBlocks).foldl (c.countBlock base blockRecvBucketsH) m
  { x with
    tmpNumSendBlocksBuffH := m
    xnodeInputSplits := (List.range c.nNodes).foldl (fun splits n =>
      Function.update splits (c.localRankToRank (c.localRank rank) n)
        (m (base + n * (c.nLocalBuckets + c.nLocalRanks + 1) + c.nLocalBuckets + c.nLocalRanks)))
      fun _ => 0 }

/-- The kernel has copied the buckets of the own blocks to the host. -/
def copyBlockRecvBuckets (rank : ℕ) (blockRecvBuckets : ℕ → ℕ) (x : PrepareRank) : PrepareRank :=
  { x with
    blockRecvBucketsH :=
      blit x.blockRecvBucketsH (c.node rank * c.numListed) c.numListed blockRecvBuckets }

/-! ### The exchange -/

/-- The puts of all ranks: the `i`-th one goes to the `i + 1`-th node behind the own one. -/
def puts : List (ℕ × ℕ) :=
  List.range c.nRanks ×ˢ List.range (c.nNodes - 1)

/-- A put of the own counts to a rank of the rail. -/
def iput (s : ℕ → PrepareRank) (p : ℕ × ℕ) : ℕ → PrepareRank :=
  let (rank, i) := p
  let myNode := c.node rank
  let peerNode := (myNode + i + 1) % c.nNodes
  let peerRank := c.localRankToRank (c.localRank rank) peerNode
  let mine := fun x => (s rank).tmpNumSendBlocksBuffH (myNode * c.countPerRank + x)
  Function.update s peerRank { s peerRank with
    tmpNumSendBlocksBuffH := blit (s peerRank).tmpNumSendBlocksBuffH (myNode * c.countPerRank)
      c.countPerRank mine }

/-! ### The counts of the forwarded blocks -/

structure ForwardCount where
  numForwardBlocksH : ℕ → ℕ
  xnodeOutputSplits : ℕ → ℕ
  localInputSplits : ℕ → ℕ

/-- The round of the loop for the node `i`. -/
def forwardFrom (rank : ℕ) (tmpNumSendBlocksBuffH : ℕ → ℕ) (s : ForwardCount) (i : ℕ) :
    ForwardCount :=
  let myNode := c.node rank
  let peer := fun x => tmpNumSendBlocksBuffH (i * c.countPerRank + x)
  let myNodeOffset := myNode * (c.nLocalBuckets + c.nLocalRanks + 1)
  let numForwardBlocksFromNode := peer (myNodeOffset + c.nLocalBuckets + c.nLocalRanks)
  let s := { s with
    xnodeOutputSplits := Function.update s.xnodeOutputSplits
      (c.localRankToRank (c.localRank rank) i) numForwardBlocksFromNode
    localInputSplits := (List.range c.nLocalRanks).foldl (fun splits r =>
      increment splits (c.localRankToRank r myNode) (peer (myNodeOffset + c.nLocalBuckets + r)))
      s.localInputSplits }
  -- blocks within the node are not forwarded
  if i = myNode then s else { s with
    numForwardBlocksH := Function.update
      ((List.range c.nLocalBuckets).foldl (fun n r =>
        increment n (myNode * c.nLocalRanks + c.bucketToRank r) (peer (myNodeOffset + r)))
        s.numForwardBlocksH)
      (i * c.nLocalRanks + c.localRank rank) numForwardBlocksFromNode }

def computeNumForwardBlocks (rank : ℕ) (x : PrepareRank) : PrepareRank :=
  let s := (List.range c.nNodes).foldl (c.forwardFrom rank x.tmpNumSendBlocksBuffH)
    ⟨fun _ => 0, fun _ => 0, fun _ => 0⟩
  { x with
    numForwardBlocks := s.numForwardBlocksH
    xnodeOutputSplits := s.xnodeOutputSplits
    localInputSplits := s.localInputSplits }

end PrepareConfig

/-! ### The counts of the received blocks -/

/-- A round of one of the two loops of `gatherNumRecvCounts`, at a rank. -/
inductive Gather
  | bucket (rank i : ℕ)
  | rank (rank i : ℕ)
  deriving DecidableEq, Repr

namespace PrepareConfig

variable (c : PrepareConfig)

/-- The rounds of all threads of all ranks. -/
def gathers : List Gather :=
  (List.range c.nRanks ×ˢ List.range (c.nNodes * c.nLocalBuckets)).map
      (fun p => Gather.bucket p.1 p.2) ++
    (List.range c.nRanks ×ˢ List.range c.nRanks).map fun p => Gather.rank p.1 p.2

/-- The rank of the node and the place in its buffer that a round stores to. -/
def gatherTarget : Gather → ℕ × ℕ
  | .bucket rank i =>
    let sendRank := c.localRankToRank (c.localRank rank) (i / c.nLocalBuckets)
    let sendBucket := sendRank * c.numRecvBuckets + (i &&& (c.numRecvBuckets - 1))
    let recvLocalRank := c.bucketToRank (i &&& (c.nLocalBuckets - 1))
    (c.localRankToRank recvLocalRank (c.node rank), sendBucket)
  | .rank rank i =>
    let sendRank := c.localRankToRank (c.localRank rank) (i / c.nLocalRanks)
    let recvLocalRank := i &&& (c.nLocalRanks - 1)
    (c.localRankToRank recvLocalRank (c.node rank), c.nNodes * c.nLocalBuckets + sendRank)

/-- The place in the own buffer that a round loads from. -/
def gatherSource : Gather → ℕ × ℕ
  | .bucket rank i =>
    let recvLocalBucket := i &&& (c.nLocalBuckets - 1)
    let sendNodeOffset :=
      i / c.nLocalBuckets * c.nNodes * (c.nLocalBuckets + c.nLocalRanks + 1)
    let rankOffsetInSendNode :=
      c.node rank * (c.nLocalBuckets + c.nLocalRanks + 1) + recvLocalBucket
    (rank, sendNodeOffset + rankOffsetInSendNode)
  | .rank rank i =>
    let recvLocalRank := i &&& (c.nLocalRanks - 1)
    let sendNodeOffset := i / c.nLocalRanks * c.nNodes * (c.nLocalBuckets + c.nLocalRanks + 1)
    let rankOffsetInSendNode :=
      c.node rank * (c.nLocalBuckets + c.nLocalRanks + 1) + c.nLocalBuckets + recvLocalRank
    (rank, sendNodeOffset + rankOffsetInSendNode)

/-- The rounds in an order of the threads. -/
def gatherNumRecvCounts (gathers : List Gather) (s : ℕ → PrepareRank) : ℕ → PrepareRank :=
  let m := scatter c.gatherTarget
    (fun g => (s (c.gatherSource g).1).tmpNumSendBlocksBuffH (c.gatherSource g).2) gathers
    fun p => (s p.1).tmpNumRecvBlocksBuff p.2
  fun rank => { s rank with tmpNumRecvBlocksBuff := fun i => m (rank, i) }

/-- The offsets of the pairs of a sending rank and a bucket, those of a bucket together. -/
def computeOffsetsFromCounts (x : PrepareRank) : PrepareRank :=
  let s := (List.range c.numRecvBuckets).foldl (fun s bucket =>
    (List.range c.nLocalRanks).foldl (fun s localRank =>
      (List.range c.nNodes).foldl (fun (s : (ℕ → ℕ) × ℕ) node =>
        let rank := node * c.nLocalRanks + localRank
        (Function.update s.1 (rank * c.numRecvBuckets + bucket) (s.2 * c.blockCount),
          s.2 + x.tmpNumRecvBlocksBuff (rank * c.numRecvBuckets + bucket))) s) s)
    (x.recvOffsets, 0)
  { x with recvOffsets := s.1, totalNumRecvBlocks := s.2 }

def copyNumRecvBlocks (x : PrepareRank) : PrepareRank :=
  { x with
    numRecvBlocks := blit x.numRecvBlocks 0 (c.nRanks * c.numRecvBuckets) x.tmpNumRecvBlocksBuff }

/-! ### All ranks -/

/-- `prepare` on all ranks, from any buffers, with the puts and the rounds of the threads in some
order. -/
def prepare (d : Batch c) (puts : List (ℕ × ℕ)) (gathers : List Gather) (s : ℕ → PrepareRank) :
    ℕ → PrepareRank :=
  let s := fun rank => c.computeNumSendBlocks rank
    (c.copyBlockRecvBuckets rank (d.blockRecvBuckets rank) (s rank))
  let s := puts.foldl c.iput s
  let s := c.gatherNumRecvCounts gathers fun rank => c.computeNumForwardBlocks rank (s rank)
  fun rank => c.copyNumRecvBlocks (c.computeOffsetsFromCounts (s rank))

end PrepareConfig

/-! ### The steps of `exec` -/

namespace PrepareConfig

variable (c : PrepareConfig)

/-- `updateProgressSendState`, at a rank for a node. -/
def numSendSteps (maxNumBlocksPerChunk rank n : ℕ) (x : PrepareRank) : ℕ :=
  let numSendBlocksToNode := x.tmpNumSendBlocksBuffH
    (c.node rank * c.nNodes * (c.nLocalBuckets + c.nLocalRanks + 1) +
      n * (c.nLocalBuckets + c.nLocalRanks + 1) + c.nLocalBuckets + c.nLocalRanks)
  if numSendBlocksToNode = 0 ∨ n = c.node rank then 0
  else (numSendBlocksToNode + maxNumBlocksPerChunk - 1) / maxNumBlocksPerChunk

/-- `updateProgressFwdState`, at a rank for a node. -/
def numFwdSteps (numBlocksPerChunk rank n : ℕ) (x : PrepareRank) : ℕ :=
  if n = c.node rank then 0
  else (x.numForwardBlocks (c.localRankToRank (c.localRank rank) n) + numBlocksPerChunk - 1) /
    numBlocksPerChunk

end PrepareConfig
end TorchComms.AllToAllvDedup
