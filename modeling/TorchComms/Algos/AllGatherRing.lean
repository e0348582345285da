import Mathlib.Data.List.Basic
import Mathlib.Tactic.Ring

/-! # The AllGather ring

A block is cut into steps. Every rank puts the steps of its own block to the right, and each step
that the left neighbour has put is forwarded when its notification has been seen, until the block
is back where it came from. One loop polls for notifications, for completed puts and for puts to
issue.
-/
namespace TorchComms.Algos.AllGatherRing

inductive Fault
  | divByZero
  | overflow
  deriving DecidableEq, Repr

/-- The communicator, the size of a block, and the configuration of the split. -/
structure Config where
  nRanks : ℕ
  nRanks_ge : 2 ≤ nRanks
  sendSize : ℕ
  sendSize_pos : 1 ≤ sendSize
  recvbuff_fits : nRanks * sendSize < 2 ^ 64
  MIN_SPLIT_SIZE : ℕ
  NUM_SPLIT : ℤ
  NUM_SPLIT_int : -2 ^ 31 ≤ NUM_SPLIT ∧ NUM_SPLIT < 2 ^ 31

/-- An `int` converted to `size_t`. -/
def toSize (x : ℤ) : ℕ := (x % 2 ^ 64).toNat

structure Split where
  stepSize : ℕ
  stepsPerBlock : ℕ
  deriving DecidableEq, Repr

structure PutQElem where
  offset : ℕ
  size : ℕ
  deriving DecidableEq, Repr

/-- Where a rank is in `impl`: before it has sent its handle, before it has the handle of the right
neighbour, in one of the three loops inside the loop, and behind the loop. -/
inductive Phase
  | init
  | waitCtrl
  | check
  | test
  | issue
  | finish
  deriving DecidableEq, Repr

structure Rank where
  phase : Phase
  putQ : List PutQElem
  iputReqs : ℕ
  blockNum : ℕ
  stepInBlock : ℕ

namespace Config

variable (c : Config)

def stepSize : Except Fault ℕ :=
  if c.sendSize ≤ c.MIN_SPLIT_SIZE then .ok c.sendSize
  else if toSize c.NUM_SPLIT = 0 then .error .divByZero
  else .ok (c.sendSize / toSize c.NUM_SPLIT)

def split : Except Fault Split := do
  let stepSize ← c.stepSize
  if stepSize = 0 then throw .divByZero
  return ⟨stepSize, max 1 ((c.sendSize + stepSize - 1) / stepSize)⟩

def left (rank : ℕ) : ℕ := (rank + c.nRanks - 1) % c.nRanks

def right (rank : ℕ) : ℕ := (rank + 1) % c.nRanks

/-- A step of a block, at the same offset in the receive buffers of both sides. -/
def elem (sp : Split) (blockId step : ℕ) : PutQElem where
  offset := blockId * c.sendSize + step * sp.stepSize
  size := min sp.stepSize (c.sendSize - step * sp.stepSize)

/-- The steps of the own block. The loop counts them in an `int`. -/
def ownElems (sp : Split) (rank : ℕ) : Except Fault (List PutQElem) :=
  if sp.stepsPerBlock < 2 ^ 31 then
    .ok ((List.range sp.stepsPerBlock).map (c.elem sp rank))
  else .error .overflow

/-- The condition of the loop. -/
def head (s : Rank) : Phase :=
  if s.putQ ≠ [] ∨ s.iputReqs ≠ 0 ∨ s.blockNum < c.nRanks - 1 then .check else .finish

/-- A notification from the left: what it is for is forwarded, but for the last block. -/
def onNotify (sp : Split) (rank : ℕ) (s : Rank) : Rank where
  phase := s.phase
  putQ :=
    if s.blockNum < c.nRanks - 2 then
      s.putQ ++ [c.elem sp ((rank + c.nRanks - (s.blockNum + 1)) % c.nRanks) s.stepInBlock]
    else s.putQ
  iputReqs := s.iputReqs
  blockNum := if s.stepInBlock = sp.stepsPerBlock - 1 then s.blockNum + 1 else s.blockNum
  stepInBlock := (s.stepInBlock + 1) % sp.stepsPerBlock

end Config

/-- All ranks, the puts that each has issued to the right, how many of them have been delivered, and
how many notifications from the left each has taken. -/
structure Ring (β : Type) where
  rank : ℕ → Rank
  issued : ℕ → List PutQElem
  delivered : ℕ → ℕ
  consumed : ℕ → ℕ
  recvbuff : ℕ → ℕ → β

namespace Ring

variable {β : Type}

def initial (recvbuff : ℕ → ℕ → β) : Ring β where
  rank := fun _ => ⟨.init, [], 0, 0, 0⟩
  issued := fun _ => []
  delivered := fun _ => 0
  consumed := fun _ => 0
  recvbuff := recvbuff

def setRank (s : Ring β) (r : ℕ) (x : Rank) : Ring β :=
  { s with rank := Function.update s.rank r x }

def setPhase (s : Ring β) (r : ℕ) (phase : Phase) : Ring β :=
  s.setRank r { s.rank r with phase := phase }

/-- The put arrives at the right neighbour, with its notification behind it. -/
def deliver (c : Config) (s : Ring β) (r : ℕ) (e : PutQElem) : Ring β :=
  { s with
    delivered := Function.update s.delivered r (s.delivered r + 1)
    recvbuff := Function.update s.recvbuff (c.right r) fun x =>
      if e.offset ≤ x ∧ x < e.offset + e.size then s.recvbuff r x else s.recvbuff (c.right r) x }

variable (c : Config) (sp : Split)

/-- The steps that get something done. -/
inductive Moves : Ring β → Ring β → Prop
  | isendCtrl {s : Ring β} {r : ℕ} (hr : r < c.nRanks) (h : (s.rank r).phase = .init) :
      Moves s (s.setPhase r .waitCtrl)
  | recvCtrl {s : Ring β} {r : ℕ} {q : List PutQElem} (hr : r < c.nRanks)
      (h : (s.rank r).phase = .waitCtrl) (hright : (s.rank (c.right r)).phase ≠ .init)
      (hq : c.ownElems sp r = .ok q) :
      Moves s (s.setRank r { s.rank r with putQ := q, phase := c.head { s.rank r with putQ := q } })
  | notified {s : Ring β} {r : ℕ} (hr : r < c.nRanks) (h : (s.rank r).phase = .check)
      (harrived : s.consumed r < s.delivered (c.left r)) :
      Moves s { s.setRank r (c.onNotify sp r (s.rank r)) with
        consumed := Function.update s.consumed r (s.consumed r + 1) }
  | completed {s : Ring β} {r : ℕ} (hr : r < c.nRanks) (h : (s.rank r).phase = .test)
      (hreq : (s.rank r).iputReqs ≠ 0)
      (hdone : (s.issued r).length - (s.rank r).iputReqs < s.delivered r) :
      Moves s (s.setRank r { s.rank r with iputReqs := (s.rank r).iputReqs - 1 })
  | iput {s : Ring β} {r : ℕ} {e : PutQElem} {rest : List PutQElem} (hr : r < c.nRanks)
      (h : (s.rank r).phase = .issue) (hq : (s.rank r).putQ = e :: rest) :
      Moves s { s.setRank r { s.rank r with putQ := rest, iputReqs := (s.rank r).iputReqs + 1 } with
        issued := Function.update s.issued r (s.issued r ++ [e]) }
  | exit {s : Ring β} {r : ℕ} (hr : r < c.nRanks) (h : (s.rank r).phase = .issue)
      (hq : (s.rank r).putQ = []) (hhead : c.head (s.rank r) = .finish) :
      Moves s (s.setPhase r .finish)
  | deliver {s : Ring β} {r : ℕ} {e : PutQElem} (hr : r < c.nRanks)
      (h : (s.issued r)[s.delivered r]? = some e) : Moves s (s.deliver c r e)

/-- The polls that find nothing. A request that is tested may be reported late. -/
inductive Polls : Ring β → Ring β → Prop
  | quiet {s : Ring β} {r : ℕ} (hr : r < c.nRanks) (h : (s.rank r).phase = .check)
      (hnone : s.consumed r = s.delivered (c.left r)) : Polls s (s.setPhase r .test)
  | pending {s : Ring β} {r : ℕ} (hr : r < c.nRanks) (h : (s.rank r).phase = .test) :
      Polls s (s.setPhase r .issue)
  | again {s : Ring β} {r : ℕ} (hr : r < c.nRanks) (h : (s.rank r).phase = .issue)
      (hq : (s.rank r).putQ = []) (hhead : c.head (s.rank r) = .check) :
      Polls s (s.setPhase r .check)

def Step (s s' : Ring β) : Prop := Moves c sp s s' ∨ Polls c s s'

/-- The states that the ranks can come to, in any order of their steps and the deliveries. -/
def Reachable (recvbuff : ℕ → ℕ → β) : Ring β → Prop :=
  Relation.ReflTransGen (Step c sp) (initial recvbuff)

end Ring
end TorchComms.Algos.AllGatherRing
