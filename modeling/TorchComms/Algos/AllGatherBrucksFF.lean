import TorchComms.Foundation.Exchange

/-! # AllGather in the way of Bruck

In every step a rank sends what it has to a peer that does not have it, at half the distance of the
step before. A block goes in two halves: the first halves of a step are on their way while the
second halves of the step before are waited for.
-/
namespace TorchComms.Algos.AllGatherBrucksFF

open Foundation

/-- The number of steps. -/
def ceilLog2I (p : ℕ) : ℕ := 1 + Nat.log2 (p - 1)

/-- Who sends to a rank at a step. -/
def srcAtStep (p rank step : ℕ) : ℕ := (rank + 2 ^ (ceilLog2I p - step - 1)) % p

/-- To whom a rank sends at a step. -/
def dstAtStep (p rank step : ℕ) : ℕ := (p + rank - 2 ^ (ceilLog2I p - step - 1)) % p

/-- The multiples of `2 ^ (k - step)` from there on, below `2 ^ k`. -/
def offsetsAtStep (k step : ℕ) : List ℕ :=
  let offset := 2 ^ (k - step)
  List.range' offset ((2 ^ k - 1) / offset) offset

/-- Which blocks a rank has at a step. -/
def stateAtStep (p rank step : ℕ) : List Bool :=
  (offsetsAtStep (ceilLog2I p) step).foldl (fun state offset => state.set ((rank + offset) % p) true)
    ((List.replicate p false).set rank true)

/-- The blocks that the sender has and the receiver has not. -/
def sendsAtStep (p rank step : ℕ) : List ℕ :=
  let dst := dstAtStep p rank step
  let srcState := stateAtStep p rank step
  let dstState := stateAtStep p dst step
  (List.range p).filter fun i => srcState.getD i false && !dstState.getD i false

section Program

variable (p sendSize rank : ℕ)

def firstHalf (block : ℕ) : Range := ⟨block * sendSize, sendSize / 2⟩

def secondHalf (block : ℕ) : Range :=
  ⟨block * sendSize + sendSize / 2, sendSize - sendSize / 2⟩

/-- The puts of one half of some blocks, the last one with a notification. -/
def iputs (half : ℕ → Range) (dstPeer : ℕ) (sends : List ℕ) : List Action :=
  sends.mapIdx fun j block => .put dstPeer ⟨half block, j == sends.length - 1⟩

/-- Every source is told that it may put. -/
def setup : List Action :=
  (List.range (ceilLog2I p)).map fun i => .sendCtrl (srcAtStep p rank i)

def firstPut : List Action :=
  [.put (dstAtStep p rank 0) ⟨firstHalf sendSize rank, true⟩]

def firstPuts (step : ℕ) : List Action :=
  iputs (firstHalf sendSize) (dstAtStep p rank step) (sendsAtStep p rank step)

def secondPuts (step : ℕ) : List Action :=
  iputs (secondHalf sendSize) (dstAtStep p rank step) (sendsAtStep p rank step)

/-- The body of the loop. -/
def body (i : ℕ) : List Action :=
  secondPuts p sendSize rank i ++ [.waitNotify (srcAtStep p rank i)] ++
    (if i < ceilLog2I p - 1 then
      .recvCtrl (dstAtStep p rank (i + 1)) :: firstPuts p sendSize rank (i + 1)
    else []) ++
    [.waitNotify (srcAtStep p rank i)]

/-- The last puts of both halves are waited for. -/
def finish : List Action :=
  (List.range (ceilLog2I p)).flatMap fun i =>
    [.waitPut (dstAtStep p rank i) (sendsAtStep p rank i).length,
      .waitPut (dstAtStep p rank i) (2 * (sendsAtStep p rank i).length)]

/-- The program of a rank. -/
def impl : List Action :=
  setup p rank ++ [.recvCtrl (dstAtStep p rank 0)] ++ firstPut p sendSize rank ++
    (List.range (ceilLog2I p)).flatMap (body p sendSize rank) ++ finish p rank

end Program

end TorchComms.Algos.AllGatherBrucksFF
