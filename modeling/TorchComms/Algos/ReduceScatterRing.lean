import Mathlib.Algebra.Order.Ring.Nat
import Mathlib.Data.List.Basic

/-! # The ReduceScatter ring

A block is cut into rounds that fit into half of the temporary buffer. In a round the partial sums
of the chunks go once round the ring: a rank receives one into the first half of its buffer, adds
its own chunk in the second half, and puts that to the right, but for the last sum of a round, which
is the rank's own and goes to its receive buffer. A rank tells the left neighbour when its buffer is
ready to receive.
-/
namespace TorchComms.Algos.ReduceScatterRing

inductive Fault
  | divByZero
  | overflow
  | lengthError
  deriving DecidableEq, Repr

/-- The communicator, with one rank on each node, the size of a block, the size of the temporary
buffer, and which of the ranks reduce in place. -/
structure Config where
  nRanks : ℕ
  nRanks_ge : 2 ≤ nRanks
  nRanks_int : nRanks < 2 ^ 31
  recvcount : ℕ
  typeSize : ℕ
  typeSize_pos : 1 ≤ typeSize
  sendbuff_fits : nRanks * (recvcount * typeSize) < 2 ^ 64
  TMPBUF_SIZE : ℕ
  inplace : ℕ → Bool

/-- A `size_t` converted to `int`. -/
def toInt (x : ℕ) : ℤ := (x : ℤ).bmod (2 ^ 32)

structure RingConfig where
  stepCount : ℕ
  nRounds : ℤ
  nSteps : ℤ
  deriving DecidableEq, Repr

/-- What the host loop and the kernel run by. -/
structure Plan where
  stepCount : ℕ
  nRounds : ℕ
  nStepsInterReduce : ℕ
  deriving DecidableEq, Repr

/-- A place in the memory of a rank: an element of the user's buffers, or the start of the second
half of the temporary buffer. -/
inductive Place
  | user (addr : ℕ)
  | redBuf
  deriving DecidableEq, Repr

/-- A put to the start of the right neighbour's temporary buffer. -/
structure Put where
  src : Place
  count : ℕ
  deriving DecidableEq, Repr

/-- What is posted to the kernel: `dst` receives the sum of the first half of the temporary buffer
and of the user's elements from `src` on. -/
structure Reduce where
  count : ℕ
  isFinal : Bool
  dst : Place
  src : ℕ
  deriving DecidableEq, Repr

/-- Where a rank is in `impl`: before it has sent its handle, at one of the four waits of the loop,
and behind the loop. -/
inductive Phase
  | init
  | waitRts
  | waitNotify
  | waitPut
  | reduce
  | finish
  deriving DecidableEq, Repr

/-- A rank with its loop variables, the puts it has issued and how many of them have arrived, the
ready-to-send messages it has taken from the right and sent to the left, the notifications it has
taken, what it has posted to the kernel and what the kernel has done, and its memory. -/
structure Rank (α : Type) where
  phase : Phase
  r : ℕ
  i : ℕ
  redPos : ℕ
  recvCount : ℕ
  issued : List Put
  delivered : ℕ
  rtsTaken : ℕ
  rtsSent : ℕ
  consumed : ℕ
  kElem : Reduce
  posted : ℕ
  kernelSteps : ℕ
  user : ℕ → α
  recvBuf : ℕ → α
  redBuf : ℕ → α

namespace Config

variable (c : Config)

def left (rank : ℕ) : ℕ := (rank + c.nRanks - 1) % c.nRanks

def right (rank : ℕ) : ℕ := (rank + 1) % c.nRanks

/-- Half of the temporary buffer, in elements. -/
def half : ℕ := c.TMPBUF_SIZE / c.typeSize / 2

def getRingConfig : Except Fault RingConfig := do
  let stepCount := min c.half c.recvcount
  if stepCount = 0 then throw .divByZero
  let nRounds := toInt (c.recvcount / stepCount)
  let nSteps : ℤ := c.nRanks - 1
  if c.recvcount % stepCount = 0 then return ⟨stepCount, nRounds, nSteps⟩
  if nRounds = 2 ^ 31 - 1 then throw .overflow
  return ⟨stepCount, nRounds + 1, nSteps⟩

/-- The number of steps that `setupPlan` gives to the kernel and for which `impl` reserves requests:
an `int` that is converted to `size_t`. -/
def setupPlan : Except Fault Plan := do
  let config ← c.getRingConfig
  let nStepsInterReduce := config.nRounds * config.nSteps
  if nStepsInterReduce < -2 ^ 31 ∨ 2 ^ 31 ≤ nStepsInterReduce then throw .overflow
  if nStepsInterReduce < 0 then throw .lengthError
  return ⟨config.stepCount, config.nRounds.toNat, nStepsInterReduce.toNat⟩

/-- Where the receive buffer of a rank lies: behind the send buffer, or its own block in it. -/
def recvbuff (rank : ℕ) : ℕ :=
  if c.inplace rank then rank * c.recvcount else c.nRanks * c.recvcount

end Config

namespace Rank

variable {α : Type} (c : Config) (p : Plan) (rank : ℕ) (x : Rank α)

/-- The number of elements of the round. -/
def count : ℕ := if x.recvCount > p.stepCount then p.stepCount else x.recvCount

def lastStep : Bool := x.i == c.nRanks - 2

def lastRound : Bool := x.r == p.nRounds - 1

def putPos : ℕ := (c.nRanks + rank - 1) % c.nRanks

def start : ℕ := (c.nRanks + rank - 2) % c.nRanks

/-- The condition of the outer loop. -/
def head (r : ℕ) : Phase := if r < p.nRounds then .waitRts else .finish

/-- The handle of the own buffer goes to the left, and the loop begins. -/
def isendCtrl : Rank α := { x with phase := head p 0, rtsSent := x.rtsSent + 1 }

/-- The right neighbour is ready: the put is issued. -/
def iput : Rank α :=
  { x with
    phase := .waitNotify
    rtsTaken := x.rtsTaken + 1
    issued := x.issued ++
      [{ src := if x.i = 0 then .user (putPos c rank * c.recvcount + x.r * p.stepCount)
                else .redBuf
         count := x.count p }] }

def notified : Rank α := { x with phase := .waitPut, consumed := x.consumed + 1 }

/-- The own put is done, and the reduction of what has come from the left is posted. -/
def post : Rank α :=
  { x with
    phase := .reduce
    posted := x.posted + 1
    kElem :=
      { count := x.count p
        isFinal := x.lastStep c
        dst := if x.lastStep c then .user (c.recvbuff rank + x.r * p.stepCount) else .redBuf
        src := x.redPos * c.recvcount + x.r * p.stepCount } }

/-- What the kernel writes at the e-th element. `finish` is the division that an average ends
with. -/
def sum [Add α] (finish : α → α) (e : ℕ) : α :=
  let s := x.recvBuf e + x.user (x.kElem.src + e)
  if x.kElem.isFinal then finish s else s

/-- A step of the kernel. -/
def kernel [Add α] (finish : α → α) : Rank α :=
  match x.kElem.dst with
  | .user addr =>
    { x with
      kernelSteps := x.kernelSteps + 1
      user := fun a => if addr ≤ a ∧ a < addr + x.kElem.count then x.sum finish (a - addr)
        else x.user a }
  | .redBuf =>
    { x with
      kernelSteps := x.kernelSteps + 1
      redBuf := fun e => if e < x.kElem.count then x.sum finish e else x.redBuf e }

/-- The left neighbour may send the next chunk, if there is one. -/
def rtsAfter : ℕ := if x.lastStep c && x.lastRound p then x.rtsSent else x.rtsSent + 1

def nextStep : Rank α :=
  { x with
    phase := .waitRts
    rtsSent := x.rtsAfter c p
    i := x.i + 1
    redPos := (x.redPos + c.nRanks - 1) % c.nRanks }

def nextRound : Rank α :=
  { x with
    phase := head p (x.r + 1)
    rtsSent := x.rtsAfter c p
    r := x.r + 1
    i := 0
    recvCount := x.recvCount - x.count p
    redPos := start c rank }

/-- The reduction is done. -/
def next : Rank α := if x.i + 1 < c.nRanks - 1 then x.nextStep c p else x.nextRound c p rank

def read (src : Place) (e : ℕ) : α :=
  match src with
  | .user addr => x.user (addr + e)
  | .redBuf => x.redBuf e

def sent : Rank α := { x with delivered := x.delivered + 1 }

/-- The elements of a put arrive, with its notification behind them. -/
def arrive (count : ℕ) (values : ℕ → α) : Rank α :=
  { x with recvBuf := fun e => if e < count then values e else x.recvBuf e }

def initial (user scratch : ℕ → α) : Rank α where
  phase := .init
  r := 0
  i := 0
  redPos := start c rank
  recvCount := c.recvcount
  issued := []
  delivered := 0
  rtsTaken := 0
  rtsSent := 0
  consumed := 0
  kElem := ⟨0, false, .redBuf, 0⟩
  posted := 0
  kernelSteps := 0
  user := user
  recvBuf := scratch
  redBuf := scratch

end Rank

/-- All ranks. -/
abbrev Ring (α : Type) := ℕ → Rank α

namespace Ring

variable {α : Type} [Add α] (c : Config) (p : Plan) (finish : α → α)

def deliver (s : Ring α) (r : ℕ) (put : Put) : Ring α :=
  Function.update (Function.update s r (s r).sent) (c.right r)
    ((s (c.right r)).arrive put.count ((s r).read put.src))

/-- The steps of the ranks and of their kernels, and the deliveries. -/
inductive Step : Ring α → Ring α → Prop
  | isendCtrl {s : Ring α} {r : ℕ} (hr : r < c.nRanks) (h : (s r).phase = .init) :
      Step s (Function.update s r ((s r).isendCtrl p))
  | iput {s : Ring α} {r : ℕ} (hr : r < c.nRanks) (h : (s r).phase = .waitRts)
      (hrts : (s r).rtsTaken < (s (c.right r)).rtsSent) :
      Step s (Function.update s r ((s r).iput c p r))
  | notified {s : Ring α} {r : ℕ} (hr : r < c.nRanks) (h : (s r).phase = .waitNotify)
      (harrived : (s r).consumed < (s (c.left r)).delivered) :
      Step s (Function.update s r (s r).notified)
  | post {s : Ring α} {r : ℕ} (hr : r < c.nRanks) (h : (s r).phase = .waitPut)
      (hdone : (s r).delivered = (s r).issued.length) :
      Step s (Function.update s r ((s r).post c p r))
  | kernel {s : Ring α} {r : ℕ} (hr : r < c.nRanks) (hposted : (s r).kernelSteps < (s r).posted)
      (hsteps : (s r).kernelSteps < p.nStepsInterReduce) :
      Step s (Function.update s r ((s r).kernel finish))
  | next {s : Ring α} {r : ℕ} (hr : r < c.nRanks) (h : (s r).phase = .reduce)
      (hdone : (s r).kernelSteps = (s r).posted) :
      Step s (Function.update s r ((s r).next c p r))
  | deliver {s : Ring α} {r : ℕ} {put : Put} (hr : r < c.nRanks)
      (h : (s r).issued[(s r).delivered]? = some put) : Step s (s.deliver c r put)

/-- The states that the ranks can come to, in any order of the steps. -/
def Reachable (user scratch : ℕ → ℕ → α) : Ring α → Prop :=
  Relation.ReflTransGen (Step c p finish) fun r => .initial c r (user r) (scratch r)

end Ring
end TorchComms.Algos.ReduceScatterRing
