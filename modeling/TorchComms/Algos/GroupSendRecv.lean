import Mathlib.Data.List.Basic

/-! # Grouped send and receive

`ctranGroupEndHook` cuts a group of operations into batches by stream. Of each batch it copies what
goes to the own rank and submits the rest as one command. The GPE threads execute `sendRecvImpl` on
their commands one after another.
-/
namespace TorchComms.Algos.GroupSendRecv

open Function

inductive OpType
  | SEND
  | RECV
  deriving DecidableEq, Repr

structure OpElem where
  type : OpType
  stream : ℕ
  peerRank : ℕ
  buff : ℕ
  count : ℕ
  typeSize : ℕ
  deriving DecidableEq, Repr

def OpElem.nbytes (op : OpElem) : ℕ := op.count * op.typeSize

/-- The operations of one kind with one peer. -/
def OpElem.Is (type : OpType) (peer : ℕ) (op : OpElem) : Bool :=
  op.type = type && op.peerRank = peer

/-- An operation of a group, with the number of earlier ones of the same kind with the same peer. -/
structure GroupOp extends OpElem where
  ordinal : ℕ
  deriving DecidableEq, Repr

/-- The operations of a group behind those `seen`. -/
def number (seen : List OpElem) : List OpElem → List GroupOp
  | [] => []
  | op :: rest =>
    ⟨op, seen.countP (OpElem.Is op.type op.peerRank)⟩ :: number (seen ++ [op]) rest

/-- The outer loop of `ctranGroupEndHook`, which takes the operations on the first one's stream. -/
def cut : ℕ → List GroupOp → List (List GroupOp)
  | 0, _ => []
  | _ + 1, [] => []
  | n + 1, op :: rest =>
    (op :: rest).filter (fun o => o.stream = op.stream) ::
      cut n ((op :: rest).filter fun o => o.stream ≠ op.stream)

/-- Every turn takes at least one operation. -/
def batches (group : List OpElem) : List (List GroupOp) := cut group.length (number [] group)

inductive CommResult
  | commSuccess
  | commInvalidUsage
  deriving DecidableEq, Repr

/-- The pairs that are copied, unless their buffers are the same. -/
def sendRecvSelfImpl (selfSends selfRecvs : List GroupOp) : Option (List (GroupOp × GroupOp)) :=
  if selfSends.length ≠ selfRecvs.length then none else some (selfSends.zip selfRecvs)

/-- What the hook returns, the copies it makes and the commands it submits. -/
structure Hook where
  result : CommResult
  copies : List (GroupOp × GroupOp)
  commands : List (List GroupOp)
  deriving DecidableEq

def selfSends (rank : ℕ) (batch : List GroupOp) : List GroupOp :=
  batch.filter fun op => op.Is .SEND rank

def selfRecvs (rank : ℕ) (batch : List GroupOp) : List GroupOp :=
  batch.filter fun op => op.Is .RECV rank

def allOps (rank : ℕ) (batch : List GroupOp) : List GroupOp :=
  batch.filter fun op => op.peerRank ≠ rank

/-- The hook on its batches; it returns at the first error. -/
def ctranGroupEndHook (rank : ℕ) : List (List GroupOp) → Hook
  | [] => ⟨.commSuccess, [], []⟩
  | batch :: rest =>
    match sendRecvSelfImpl (selfSends rank batch) (selfRecvs rank batch) with
    | none => ⟨.commInvalidUsage, [], []⟩
    | some pairs =>
      let next := ctranGroupEndHook rank rest
      ⟨next.result, pairs ++ next.copies,
        if (allOps rank batch).isEmpty then next.commands
        else allOps rank batch :: next.commands⟩

def sendsOf (command : List GroupOp) : List GroupOp := command.filter fun op => op.type = .SEND

def recvsOf (command : List GroupOp) : List GroupOp := command.filter fun op => op.type = .RECV

/-- Where a GPE thread is in `sendRecvImpl`: the loops over the `irecvCtrl` of the sends and the
`isendCtrl` of the receives, the loop that puts, and the one that waits for notifications. -/
inductive Phase
  | recvCtrls (i : ℕ)
  | sendCtrls (i : ℕ)
  | putting
  | waiting (i : ℕ)
  deriving DecidableEq, Repr

structure Gpe where
  submitted : ℕ
  executed : ℕ
  phase : Phase
  deriving DecidableEq, Repr

/-- All ranks. `irecvCtrls a b` are the sends for which `a` asked `b` for a control message and
`isendCtrls b a` the receives whose control message `b` sent to `a`; the requests of one peer are
completed in order. `puts` has the puts of a rank, each with the receive whose buffer it goes to,
and `notified a b` the notifications of `b` that `a` has taken. -/
structure State where
  gpe : ℕ → Gpe
  irecvCtrls : ℕ → ℕ → List GroupOp
  isendCtrls : ℕ → ℕ → List GroupOp
  puts : ℕ → List (GroupOp × GroupOp)
  notified : ℕ → ℕ → ℕ

namespace State

def initial : State where
  gpe := fun _ => ⟨0, 0, .recvCtrls 0⟩
  irecvCtrls := fun _ _ => []
  isendCtrls := fun _ _ => []
  puts := fun _ => []
  notified := fun _ _ => 0

def setGpe (s : State) (a : ℕ) (g : Gpe) : State := { s with gpe := update s.gpe a g }

def setPhase (s : State) (a : ℕ) (phase : Phase) : State :=
  s.setGpe a { s.gpe a with phase := phase }

/-- The sends that `a` has put. -/
def putOps (s : State) (a : ℕ) : List GroupOp := (s.puts a).map Prod.fst

/-- How many puts of `b` to `a` there were, each with a notification. -/
def notifications (s : State) (b a : ℕ) : ℕ := (s.putOps b).countP fun op => op.peerRank = a

end State

/-- Appends to one of the lists. -/
def push (f : ℕ → ℕ → List GroupOp) (a b : ℕ) (op : GroupOp) : ℕ → ℕ → List GroupOp :=
  update f a (update (f a) b (f a b ++ [op]))

variable (commands : ℕ → List (List GroupOp))

/-- The command at a position. -/
def commandAt (a i : ℕ) : List GroupOp := (commands a)[i]?.getD []

/-- The command that a rank executes. -/
def State.command (s : State) (a : ℕ) : List GroupOp := commandAt commands a (s.gpe a).executed

/-- What a rank does in its phase. -/
inductive Runs (s : State) (a : ℕ) : Phase → State → Prop
  | irecvCtrl (i : ℕ) (op : GroupOp) (hop : (sendsOf (s.command commands a))[i]? = some op) :
      Runs s a (.recvCtrls i)
        { s.setPhase a (.recvCtrls (i + 1)) with
          irecvCtrls := push s.irecvCtrls a op.peerRank op }
  | recvCtrlsDone (i : ℕ) (hlen : i = (sendsOf (s.command commands a)).length) :
      Runs s a (.recvCtrls i) (s.setPhase a (.sendCtrls 0))
  | isendCtrl (i : ℕ) (op : GroupOp) (hop : (recvsOf (s.command commands a))[i]? = some op) :
      Runs s a (.sendCtrls i)
        { s.setPhase a (.sendCtrls (i + 1)) with
          isendCtrls := push s.isendCtrls a op.peerRank op }
  | sendCtrlsDone (i : ℕ) (hlen : i = (recvsOf (s.command commands a)).length) :
      Runs s a (.sendCtrls i) (s.setPhase a .putting)
  | iput (k : ℕ) (op rop : GroupOp) (hop : op ∈ sendsOf (s.command commands a))
      (hnew : op ∉ s.putOps a) (hreq : (s.irecvCtrls a op.peerRank)[k]? = some op)
      (hctrl : (s.isendCtrls op.peerRank a)[k]? = some rop) :
      Runs s a .putting { s with puts := update s.puts a (s.puts a ++ [(op, rop)]) }
  | putsDone (hall : ∀ op ∈ sendsOf (s.command commands a), op ∈ s.putOps a) :
      Runs s a .putting (s.setPhase a (.waiting 0))
  | waitNotify (i : ℕ) (op : GroupOp) (hop : (recvsOf (s.command commands a))[i]? = some op)
      (hnotify : s.notified a op.peerRank < s.notifications op.peerRank a) :
      Runs s a (.waiting i)
        { s.setPhase a (.waiting (i + 1)) with
          notified := update s.notified a
            (update (s.notified a) op.peerRank (s.notified a op.peerRank + 1)) }
  | finish (i : ℕ) (hlen : i = (recvsOf (s.command commands a)).length) :
      Runs s a (.waiting i)
        (s.setGpe a ⟨(s.gpe a).submitted, (s.gpe a).executed + 1, .recvCtrls 0⟩)

/-- The hook submits the next command, or a GPE thread goes on with one that was submitted. -/
inductive Step (s : State) : State → Prop
  | submit (a : ℕ) (hlt : (s.gpe a).submitted < (commands a).length) :
      Step s (s.setGpe a { s.gpe a with submitted := (s.gpe a).submitted + 1 })
  | run {s' : State} (a : ℕ) (hlt : (s.gpe a).executed < (s.gpe a).submitted)
      (hrun : Runs commands s a (s.gpe a).phase s') : Step s s'

inductive Reachable : State → Prop
  | initial : Reachable State.initial
  | step {s s' : State} (h : Reachable s) (hstep : Step commands s s') : Reachable s'

end TorchComms.Algos.GroupSendRecv
