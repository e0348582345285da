import TorchComms.Foundation.Cutting

/-! # The AllGatherP pipeline

The GPE thread of a rank passes blocks along its rail, a ring of the ranks with its local rank on
all nodes. The stream of the rank forwards its own block and every block that arrives to the other
ranks of the node. The two meet in `pipeSync`: the thread posts the steps, and the stream waits for
them.
-/
namespace TorchComms.Algos.AllGatherP

open Foundation

inductive Fault
  | outOfRange
  deriving DecidableEq, Repr

/-- The cluster, with ranks laid out node by node, the persistent receive buffer and the ranks that
another rank reaches by NVL. -/
structure Config where
  nNodes : ℕ
  nLocalRanks : ℕ
  nNodes_pos : 1 ≤ nNodes
  nLocalRanks_pos : 1 ≤ nLocalRanks
  maxRecvSize : ℕ
  isNvl : ℕ → ℕ → Bool

namespace Config

variable (c : Config)

def nRanks : ℕ := c.nNodes * c.nLocalRanks

/-- The block that `rank` receives and puts in a step. -/
def getRecvChunkIdxInRail (rank step : ℕ) : ℕ :=
  (rank + c.nRanks - step * c.nLocalRanks) &&& (c.nRanks - 1)

/-- The neighbours in the rail, as `gpeFn` has them. -/
def downPeer (rank : ℕ) : ℕ := (c.nRanks + rank + c.nLocalRanks) % c.nRanks

def upPeer (rank : ℕ) : ℕ := (c.nRanks + rank - c.nLocalRanks) % c.nRanks

/-- The upper neighbour, as `execPipeline` has it. -/
def execUpPeer (rank : ℕ) : ℕ := (c.nRanks + rank - c.nLocalRanks) &&& (c.nRanks - 1)

def localRank (rank : ℕ) : ℕ := rank % c.nLocalRanks

def localRankToRank (rank localPeer : ℕ) : ℕ := rank / c.nLocalRanks * c.nLocalRanks + localPeer

/-- The `r`-th local peer of `nvlCeBcast`. -/
def localPeer (rank r : ℕ) : ℕ :=
  c.localRankToRank rank ((c.localRank rank + r) % c.nLocalRanks)

end Config

/-- What the executions are given: the size of a block, for each rank whether it sends in place, and
its data. Every execution passes the size check of `allGatherPExec`. -/
structure Calls (c : Config) (β : Type) where
  sendSize : ℕ → ℕ
  inPlace : ℕ → ℕ → Bool
  sendData : ℕ → ℕ → ℕ → β
  fits : ∀ e, c.nRanks * sendSize e ≤ c.maxRecvSize

/-- Where a copy reads at its rank. -/
inductive Src
  | sendbuff
  | recvbuff (offset : ℕ)
  deriving DecidableEq, Repr

/-- The source lies in the buffer that it points to. -/
def Src.InRange (c : Config) (size : ℕ) : Src → Prop
  | .sendbuff => True
  | .recvbuff offset => offset + size ≤ c.maxRecvSize

instance (c : Config) (size : ℕ) (src : Src) : Decidable (Src.InRange c size src) := by
  cases src <;> unfold Src.InRange <;> infer_instance

/-- A put, to the offset in the receive buffer of the lower neighbour. -/
structure Put where
  src : Src
  offset : ℕ
  size : ℕ
  deriving DecidableEq, Repr

/-- Where the stream of a rank is. Round 0 forwards the own block, round `s + 1` the block of the
step `s`, and the barrier of the round behind the last one belongs to `PipeEnd`. -/
inductive StreamPc
  | idle
  | hold
  | copyToSelf
  | barrier (round : ℕ)
  | await (round : ℕ)
  | copy (round r : ℕ)
  | waitPost (step : ℕ)
  | pipeEnd
  deriving DecidableEq, Repr

/-- Where the GPE thread of a rank is in `gpeFn`. -/
inductive GpePc
  | idle
  | isendCtrl
  | irecvCtrl
  | iput (step : ℕ)
  | waitNotify (step : ℕ)
  | post (step : ℕ)
  | waitPuts
  deriving DecidableEq, Repr

/-- `calls` executions have started on the stream, `runs` on the GPE thread. The rank has come to
`arrived` barriers. -/
structure Rank where
  stream : StreamPc := .idle
  calls : ℕ := 0
  arrived : ℕ := 0
  gpe : GpePc := .idle
  runs : ℕ := 0
  postFlag : ℤ := -1

/-- All ranks, the control messages and the notifications that a rank has not yet taken, its puts
that have not arrived, in order, and the buffers. -/
structure State (β : Type) where
  rank : ℕ → Rank := fun _ => {}
  ready : ℕ → ℕ := fun _ => 0
  notified : ℕ → ℕ := fun _ => 0
  flight : ℕ → List Put := fun _ => []
  sendbuff : ℕ → ℕ → β
  recvbuff : ℕ → ℕ → β

inductive Op
  | stream (rank : ℕ)
  | gpe (rank : ℕ)
  | deliver (rank : ℕ)
  deriving DecidableEq, Repr

namespace Calls

variable {c : Config} {β : Type} (j : Calls c β)

/-- `sendbuff` of the execution `e`; in place it points to the own block. -/
def sendPtr (e rank : ℕ) : Src :=
  if j.inPlace e rank then .recvbuff (rank * j.sendSize e) else .sendbuff

/-- The put of a step: of the own block first, then of the blocks received. -/
def put (e rank step : ℕ) : Put where
  src := if step = 0 then j.sendPtr e rank
    else .recvbuff (c.getRecvChunkIdxInRail rank step * j.sendSize e)
  offset := c.getRecvChunkIdxInRail rank step * j.sendSize e
  size := j.sendSize e

/-- What a round of the stream forwards, and to which offset. -/
def bcast (e rank : ℕ) : ℕ → Src × ℕ
  | 0 => (j.sendPtr e rank, rank * j.sendSize e)
  | step + 1 =>
    let offset := c.getRecvChunkIdxInRail (c.execUpPeer rank) step * j.sendSize e
    (.recvbuff offset, offset)

end Calls

namespace State

variable {c : Config} {β : Type} (j : Calls c β) (s : State β)

def setRank (r : ℕ) (x : Rank) : State β := { s with rank := Function.update s.rank r x }

def setStream (r : ℕ) (pc : StreamPc) : State β := s.setRank r { s.rank r with stream := pc }

def setGpe (r : ℕ) (pc : GpePc) : State β := s.setRank r { s.rank r with gpe := pc }

def read (r : ℕ) : Src → ℕ → β
  | .sendbuff => s.sendbuff r
  | .recvbuff offset => fun x => s.recvbuff r (offset + x)

/-- Copy from a rank to the receive buffer of a rank. -/
def copy (c : Config) (r : ℕ) (src : Src) (dst offset size : ℕ) : Except Fault (State β) :=
  if src.InRange c size ∧ offset + size ≤ c.maxRecvSize then
    .ok { s with
      recvbuff := Function.update s.recvbuff dst
        (blit (s.recvbuff dst) offset size (s.read r src)) }
  else .error .outOfRange

/-- The next execution: its data is there, and the first kernel starts. -/
def start (r : ℕ) : State β :=
  let x := s.rank r
  let size := j.sendSize x.calls
  let data := j.sendData x.calls r
  let s := s.setRank r { x with
    calls := x.calls + 1
    stream := if 1 < c.nNodes ∧ c.nLocalRanks = 1 then .hold else .copyToSelf }
  if j.inPlace x.calls r then
    { s with recvbuff := Function.update s.recvbuff r (blit (s.recvbuff r) (r * size) size data) }
  else { s with sendbuff := Function.update s.sendbuff r data }

/-- Nothing to do in place. -/
def copyToSelf (e r : ℕ) : Except Fault (State β) :=
  if j.sendPtr e r = .recvbuff (r * j.sendSize e) then .ok s
  else s.copy c r (j.sendPtr e r) r (r * j.sendSize e) (j.sendSize e)

/-- The copy of `nvlCeBcast` to one local peer. -/
def copyToPeer (e r round p : ℕ) : Except Fault (State β) :=
  if c.isNvl r (c.localPeer r p) then
    s.copy c r (j.bcast e r round).1 (c.localPeer r p) (j.bcast e r round).2 (j.sendSize e)
  else .ok s

/-- The operations that `execPipeline` puts on the stream, in the execution `calls - 1`. An
operation that has to wait changes nothing. -/
def streamStep (r : ℕ) : Except Fault (State β) :=
  let x := s.rank r
  let e := x.calls - 1
  match x.stream with
  | .idle => .ok (s.start j r)
  | .hold =>
    if x.runs = x.calls ∧ x.gpe = .idle then .ok (s.setStream r .copyToSelf) else .ok s
  | .copyToSelf => do
    let s ← s.copyToSelf j e r
    .ok (s.setStream r (if 1 < c.nLocalRanks then .barrier 0 else .idle))
  | .barrier round => .ok (s.setRank r { x with stream := .await round, arrived := x.arrived + 1 })
  | .await round =>
    if ∀ p < c.nLocalRanks, x.arrived ≤ (s.rank (c.localRankToRank r p)).arrived then
      .ok (s.setStream r (if round = c.nNodes then .idle else .copy round 1))
    else .ok s
  | .copy round p => do
    let s ← s.copyToPeer j e r round p
    .ok (s.setStream r
      (if p + 1 < c.nLocalRanks then .copy round (p + 1)
      else if round + 1 < c.nNodes then .waitPost round
      else .pipeEnd))
  | .waitPost step =>
    if (step : ℤ) ≤ x.postFlag then .ok (s.setStream r (.barrier (step + 1))) else .ok s
  | .pipeEnd => .ok (s.setRank r { x with stream := .barrier c.nNodes, postFlag := -1 })

/-- `gpeFn`, in the run `runs - 1`. -/
def gpeStep (r : ℕ) : State β :=
  let x := s.rank r
  match x.gpe with
  | .idle =>
    if 1 < c.nNodes ∧ x.runs < x.calls then
      s.setRank r { x with gpe := .isendCtrl, runs := x.runs + 1 }
    else s
  | .isendCtrl =>
    { s.setGpe r .irecvCtrl with
      ready := Function.update s.ready (c.upPeer r) (s.ready (c.upPeer r) + 1) }
  | .irecvCtrl =>
    if 0 < s.ready r then
      { s.setGpe r (.iput 0) with ready := Function.update s.ready r (s.ready r - 1) }
    else s
  | .iput step =>
    { s.setGpe r (.waitNotify step) with
      flight := Function.update s.flight r (s.flight r ++ [j.put (x.runs - 1) r step]) }
  | .waitNotify step =>
    if 0 < s.notified r then
      { s.setGpe r (.post step) with notified := Function.update s.notified r (s.notified r - 1) }
    else s
  | .post step => s.setRank r { x with
      gpe := if step + 1 < c.nNodes - 1 then .iput (step + 1) else .waitPuts
      postFlag := step }
  | .waitPuts => if s.flight r = [] then s.setGpe r .idle else s

/-- The first put in flight arrives, with its notification behind it. -/
def deliver (c : Config) (r : ℕ) : Except Fault (State β) :=
  match s.flight r with
  | [] => .ok s
  | p :: rest => do
    let s ← s.copy c r p.src (c.downPeer r) p.offset p.size
    .ok { s with
      flight := Function.update s.flight r rest
      notified := Function.update s.notified (c.downPeer r) (s.notified (c.downPeer r) + 1) }

def step (s : State β) : Op → Except Fault (State β)
  | .stream r => if r < c.nRanks then s.streamStep j r else .ok s
  | .gpe r => .ok (if r < c.nRanks then s.gpeStep j r else s)
  | .deliver r => if r < c.nRanks then s.deliver c r else .ok s

end State
end TorchComms.Algos.AllGatherP
