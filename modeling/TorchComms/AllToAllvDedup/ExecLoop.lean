import Mathlib.Data.Finset.Card
import TorchComms.AllToAllvDedup.ExecLink

/-! # The loop of the ranks of a rail

The host thread of a rank goes round a loop: it makes progress on its puts to all nodes, looks
whether the kernel is through with the blocks inside the node, and from then on makes progress on
what it forwards. It counts the nodes with steps left and leaves the loop when there are none.
-/
namespace TorchComms.AllToAllvDedup
open Function

/-- Where the host thread is in `execGpeFn`. -/
inductive ExecPhase
  | progressSend
  | fwdIntra
  | progressFwd
  | check
  | finished
  deriving DecidableEq, Repr

/-- `intraForwarded` is set by the kernel. -/
structure ExecRank where
  phase : ExecPhase
  numPendingSendNodes : ℕ
  numPendingRecvFwdNodes : ℕ
  fwdIntraDone : Bool
  intraForwarded : Bool
  deriving DecidableEq, Repr

/-- The ranks of a rail, one on each node, and their links. -/
structure ExecState where
  link : ℕ × ℕ → Link
  rank : ℕ → ExecRank

namespace ExecState

variable (c : ExecConfig)

/-- The nodes that a rank has something to send to. -/
def sendNodes (a : ℕ) : Finset ℕ := (Finset.range c.nNodes).filter fun b => b ≠ a ∧ c.numBlocks a b ≠ 0

/-- The nodes that a rank forwards something from. -/
def fwdNodes (b : ℕ) : Finset ℕ := (Finset.range c.nNodes).filter fun a => a ≠ b ∧ 0 < c.numSteps a b

/-- The start of a round of the loop. -/
def ExecRank.top (x : ExecRank) : ExecPhase :=
  if x.numPendingSendNodes = 0 then .fwdIntra else .progressSend

def initialRank (a : ℕ) : ExecRank where
  phase := if (sendNodes c a).card = 0 then .fwdIntra else .progressSend
  numPendingSendNodes := (sendNodes c a).card
  numPendingRecvFwdNodes := (fwdNodes c a).card
  fwdIntraDone := false
  intraForwarded := false

def initial : ExecState where
  link := fun p => Link.initial c (c.numSteps p.1 p.2)
  rank := initialRank c

def setLink (s : ExecState) (a b : ℕ) (l : Link) : ExecState := { s with link := update s.link (a, b) l }

def setRank (s : ExecState) (a : ℕ) (x : ExecRank) : ExecState := { s with rank := update s.rank a x }

def setPhase (s : ExecState) (a : ℕ) (phase : ExecPhase) : ExecState :=
  s.setRank a { s.rank a with phase := phase }

/-- The steps that get something done. Each visit of the loop to a node is taken apart into its
rounds. -/
inductive Step : ExecState → ExecState → Prop
  | send {s : ExecState} {a b : ℕ} {l : Link} (ha : a < c.nNodes) (hb : b < c.nNodes) (hne : b ≠ a)
      (hphase : (s.rank a).phase = .progressSend) (hsteps : c.numSteps a b ≠ 0)
      (h : Link.SendStep c (s.link (a, b)) l) : Step s (s.setLink a b l)
  | pollSendTrans {s : ExecState} {a b : ℕ} (ha : a < c.nNodes) (hb : b < c.nNodes) (hne : b ≠ a)
      (hphase : (s.rank a).phase = .progressSend) (hsteps : c.numSteps a b ≠ 0)
      (hposted : (s.link (a, b)).sendTrans.done < (s.link (a, b)).sendTrans.posted)
      (hdone : (s.link (a, b)).sendTrans.done < (s.link (a, b)).putsDone) :
      Step s ((s.setLink a b ((s.link (a, b)).pollSendTrans (c.numSteps a b))).setRank a
        { s.rank a with
          numPendingSendNodes :=
            if c.numSteps a b = (s.link (a, b)).sendTrans.done + 1 then
              (s.rank a).numPendingSendNodes - 1
            else (s.rank a).numPendingSendNodes })
  | fwd {s : ExecState} {a b : ℕ} {l : Link} (ha : a < c.nNodes) (hb : b < c.nNodes) (hne : a ≠ b)
      (hphase : (s.rank b).phase = .progressFwd)
      (hsteps : c.numSteps a b ≠ (s.link (a, b)).recvFwd.done)
      (h : Link.FwdStep (c.numSteps a b) (s.link (a, b)) l) : Step s (s.setLink a b l)
  | pollFwd {s : ExecState} {a b : ℕ} (ha : a < c.nNodes) (hb : b < c.nNodes) (hne : a ≠ b)
      (hphase : (s.rank b).phase = .progressFwd)
      (hsteps : c.numSteps a b ≠ (s.link (a, b)).recvFwd.done)
      (hposted : (s.link (a, b)).recvFwd.done < (s.link (a, b)).recvFwd.posted)
      (hdone : isComplete (s.link (a, b)).forwarded c.numFwdWorkers (s.link (a, b)).recvFwd.done) :
      Step s ((s.setLink a b ((s.link (a, b)).pollFwd c (c.numSteps a b))).setRank b
        { s.rank b with
          numPendingRecvFwdNodes :=
            if (s.link (a, b)).recvFwd.done + 1 = c.numSteps a b then
              (s.rank b).numPendingRecvFwdNodes - 1
            else (s.rank b).numPendingRecvFwdNodes })
  | env {s : ExecState} {a b : ℕ} {l : Link} (ha : a < c.nNodes) (hb : b < c.nNodes) (hne : a ≠ b)
      (h : Link.EnvStep c a b (s.link (a, b)) l) : Step s (s.setLink a b l)
  | intraForward {s : ExecState} {a : ℕ} (ha : a < c.nNodes) (h : (s.rank a).intraForwarded = false) :
      Step s (s.setRank a { s.rank a with intraForwarded := true })
  | fwdIntra {s : ExecState} {a : ℕ} (ha : a < c.nNodes) (hphase : (s.rank a).phase = .fwdIntra)
      (hdone : (s.rank a).fwdIntraDone = false) (h : (s.rank a).intraForwarded = true) :
      Step s (s.setRank a { s.rank a with fwdIntraDone := true })
  | leave {s : ExecState} {a : ℕ} (ha : a < c.nNodes) (hphase : (s.rank a).phase = .check)
      (hsend : (s.rank a).numPendingSendNodes = 0) (hfwd : (s.rank a).numPendingRecvFwdNodes = 0)
      (hdone : (s.rank a).fwdIntraDone = true) : Step s (s.setPhase a .finished)

/-- The loop goes on without having found anything. -/
inductive Turn : ExecState → ExecState → Prop
  | sendEnd {s : ExecState} {a : ℕ} (ha : a < c.nNodes) (h : (s.rank a).phase = .progressSend) :
      Turn s (s.setPhase a .fwdIntra)
  | intraEnd {s : ExecState} {a : ℕ} (ha : a < c.nNodes) (h : (s.rank a).phase = .fwdIntra) :
      Turn s (s.setPhase a
        (if (s.rank a).fwdIntraDone = true ∧ (s.rank a).numPendingRecvFwdNodes ≠ 0 then .progressFwd
        else .check))
  | fwdEnd {s : ExecState} {a : ℕ} (ha : a < c.nNodes) (h : (s.rank a).phase = .progressFwd) :
      Turn s (s.setPhase a .check)
  | again {s : ExecState} {a : ℕ} (ha : a < c.nNodes) (h : (s.rank a).phase = .check)
      (hpending : (s.rank a).numPendingSendNodes ≠ 0 ∨ (s.rank a).numPendingRecvFwdNodes ≠ 0 ∨
        (s.rank a).fwdIntraDone = false) :
      Turn s (s.setPhase a (ExecRank.top (s.rank a)))

/-- The states that the ranks can come to, in any order of their steps, the steps of the kernels and
the arrivals. -/
def Reachable : ExecState → Prop :=
  Relation.ReflTransGen (fun s t => Step c s t ∨ Turn c s t) (initial c)

/-- A node has steps to send or to forward left. -/
def Pending (s : ExecState) : Prop :=
  ∃ a < c.nNodes, ∃ b < c.nNodes, a ≠ b ∧
    ((s.link (a, b)).sendTrans.done < c.numSteps a b ∨
      (s.link (a, b)).recvFwd.done < c.numSteps a b)

/-- The control messages that the sender has received: both a request and a message are there. -/
def received (l : Link) : ℕ := min l.fwdChunkRSyncReqs.length l.ctrlsArrived

/-- A step is posted to the kernel of the sender only when the put has completed that had the chunk
before, and put only when the forwarder's kernel is through with the step before in the remote chunk.
Both sides count the same control messages. While steps are left something can be done. -/
structure FlowControl (s : ExecState) : Prop where
  refill : ∀ a < c.nNodes, ∀ b < c.nNodes, a ≠ b → ∀ step, c.NUM_CHUNKS ≤ step →
    step < (s.link (a, b)).sendCopy.posted → step - c.NUM_CHUNKS < (s.link (a, b)).putsDone
  copied : ∀ a < c.nNodes, ∀ b < c.nNodes, a ≠ b → ∀ w < c.numSendWorkers,
    (s.link (a, b)).copied w ≤ (s.link (a, b)).sendCopy.posted
  remote : ∀ a < c.nNodes, ∀ b < c.nNodes, a ≠ b → ∀ step, c.NUM_CHUNKS ≤ step →
    step < (s.link (a, b)).sendTrans.posted →
      isComplete (s.link (a, b)).forwarded c.numFwdWorkers (step - c.NUM_CHUNKS)
  sent : ∀ a < c.nNodes, ∀ b < c.nNodes, a ≠ b →
    (s.link (a, b)).recvFwd.done = c.numSteps a b →
      (s.link (a, b)).fwdChunkSSyncReqs.length = c.numSteps a b - c.NUM_CHUNKS
  received : ∀ a < c.nNodes, ∀ b < c.nNodes, a ≠ b →
    (s.link (a, b)).sendTrans.posted = c.numSteps a b →
      received (s.link (a, b)) = c.numSteps a b - c.NUM_CHUNKS
  enabled : Pending c s → ∃ t u, Relation.ReflTransGen (Turn c) s t ∧ Step c t u

end ExecState
end TorchComms.AllToAllvDedup
