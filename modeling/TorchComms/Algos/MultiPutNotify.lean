import TorchComms.Algos.DeviceCopy
import TorchComms.Gpe.KernelFlag

/-! # Puts and notifications over NVLink

`setupPlan` gives a kernel one element for each put and for each wait. The GPE thread posts or
revokes an element by its status words. All thread blocks walk the list of puts, block 0 then walks
the list of waits. A put notifies its receiver by one slot for each block.
-/
namespace TorchComms.Algos.MultiPut

open Function Relation Gpe

inductive OpType
  | SEND
  | RECV
  deriving DecidableEq, Repr

/-- An operation of a group. The receiver's registration decides on both sides whether its element
is posted or revoked. -/
structure OpElem where
  type : OpType
  peerRank : ℕ
  nbytes : ℕ
  nvlBackend : Bool
  posted : Bool
  aligned : Bool
  deriving DecidableEq, Repr

/-- The arguments of a put or wait element, with what the GPE thread does with it. -/
structure KernelElem where
  peer : ℕ
  nbytes : ℕ
  ngroups : ℕ
  posted : Bool
  aligned : Bool
  deriving DecidableEq, Repr

/-- The element notifies, or waits for, this group of this peer. -/
def KernelElem.uses (peer g : ℕ) (e : KernelElem) : Bool :=
  e.peer = peer && e.posted && g < e.ngroups

/-- Both buffers and the length are aligned. -/
def KernelElem.canCopy16 (e : KernelElem) : Bool := e.aligned && e.nbytes % 16 = 0

/-- The size of what is copied at once. -/
def KernelElem.size (e : KernelElem) : ℕ := if e.canCopy16 then 16 else 1

/-- The indices that a block copies. -/
def KernelElem.copyBy (e : KernelElem) (blockDim groupIdx : ℕ) : List ℕ :=
  if e.canCopy16 then copy blockDim 1 (e.nbytes / 16) groupIdx e.ngroups
  else copy blockDim 16 e.nbytes groupIdx e.ngroups

inductive Side
  | put
  | wait
  deriving DecidableEq, Repr

/-- The operations that have elements in the list. -/
def Side.opType : Side → OpType
  | put => .SEND
  | wait => .RECV

/-- The groups that an element is allocated with. -/
def Side.words : Side → KernelElem → ℕ
  | put, e => e.ngroups
  | wait, _ => 1

/-- The groups of operations of the ranks, and how the kernels are launched. -/
structure Group where
  chunkSize : ℕ
  maxNumThreadBlocks : ℕ
  blockDim : ℕ → ℕ
  blockDim_pos : ∀ r, 0 < blockDim r
  opGroup : ℕ → List OpElem

namespace Group

variable (G : Group)

def getNumGroups (nbytes : ℕ) : ℕ := min (max 1 (nbytes / G.chunkSize)) G.maxNumThreadBlocks

/-- The element of an operation. -/
def kernelElem (op : OpElem) : KernelElem where
  peer := op.peerRank
  nbytes := op.nbytes
  ngroups := G.getNumGroups op.nbytes
  posted := op.posted
  aligned := op.aligned

/-- `putNotifyList` and `waitNotifyList` of `setupPlan`. -/
def list (r : ℕ) (d : Side) : List KernelElem :=
  (G.opGroup r).filterMap fun op =>
    if op.type = d.opType ∧ op.nvlBackend = true ∧ 0 < op.nbytes then some (G.kernelElem op)
    else none

/-- The lengths of the lists of a rank. -/
def lengths (r : ℕ) (d : Side) : ℕ := (G.list r d).length

/-- `config.numBlocks` -/
def numBlocks (r : ℕ) : ℕ := (G.list r .put).foldl (fun n e => max n e.ngroups) 1

/-- The sends and receives between two ranks match in order, with the same byte count. -/
def Matched : Prop :=
  ∀ a b, ((G.list a .put).filter (·.peer = b)).map (fun e => (e.nbytes, e.posted)) =
    ((G.list b .wait).filter (·.peer = a)).map fun e => (e.nbytes, e.posted)

/-- Every put of a kernel uses all of its thread blocks. -/
def Uniform : Prop := ∀ r, ∀ e ∈ G.list r .put, e.ngroups = G.numBlocks r

end Group

inductive Notify
  | NOTIFY_RESET
  | NOTIFY_SET
  deriving DecidableEq, Repr

/-- A thread of `devSyncWaitNotify` for one group: it polls, it has seen the notification, it has
reset it. -/
inductive Ack
  | waiting
  | seen
  | reset
  deriving DecidableEq, Repr

/-- A thread block, by what it does next. `assigned` says whether the poll has already assigned its
variable `aborted`. -/
inductive Point
  | poll (d : Side) (i : ℕ) (assigned : Bool)
  | copy (i : ℕ)
  | notify (i : ℕ)
  | set (i : ℕ)
  | gather (i : ℕ) (ack : ℕ → Ack)
  | complete (d : Side) (i : ℕ)
  | free (d : Side) (i : ℕ)
  | reset (d : Side) (i : ℕ)
  | finished

structure Block where
  rank : ℕ
  group : ℕ
  deriving DecidableEq, Repr

structure ElemId where
  rank : ℕ
  side : Side
  index : ℕ
  deriving DecidableEq, Repr

/-- A slot of `syncs`, in the memory of the receiver. -/
structure Slot where
  receiver : ℕ
  sender : ℕ
  group : ℕ
  deriving DecidableEq, Repr

/-- The kernels of all ranks with the host threads. `written` counts the words of an element that
the host has written. Ghosts count how often a block has copied a put (`copies`) and how often a
slot was set and reset (`sets`, `gets`). -/
structure Kernels where
  status : ElemId × ℕ → ElemStatus
  written : ElemId → ℕ
  block : Block → Point
  slot : Slot → Notify
  copies : ElemId × ℕ → ℕ
  sets : Slot → ℕ
  gets : Slot → ℕ

/-- The next word of an element is written; a block goes on, where an unassigned `aborted` reads as
`aborted`; the thread of a block that waits for a group goes on. -/
inductive Op
  | host (x : ElemId)
  | block (b : Block) (aborted : Bool)
  | thread (r j : ℕ)
  deriving DecidableEq, Repr

/-- `*revoked` of `elemWaitPostOrRevoke` after the value `val` was read. -/
def revoked (val : ElemStatus) (assigned aborted : Bool) : Bool :=
  val = .REVOKED || (!assigned && aborted)

/-- The poll ends. -/
def Answered (val : ElemStatus) : Prop := val = .POSTED ∨ val = .REVOKED

/-- What a block does with an element that is posted for it. -/
def work (i : ℕ) : Side → Point
  | .put => .copy i
  | .wait => .gather i fun _ => .waiting

/-- What a block does after it has freed a list. -/
def afterList (g : ℕ) : Side → Point
  | .put => if g = 0 then .poll .wait 0 false else .finished
  | .wait => .finished

namespace Kernels

variable (G : Group)

/-- The elements are popped, the kernels have started. -/
def init : Kernels where
  status := fun (x, g) =>
    match (G.list x.rank x.side)[x.index]? with
    | some e => if g < x.side.words e then .INUSE else .RESET
    | none => .RESET
  written := fun _ => 0
  block := fun _ => .poll .put 0 false
  slot := fun _ => .NOTIFY_RESET
  copies := fun _ => 0
  sets := fun _ => 0
  gets := fun _ => 0

/-- The word that block `b` polls of element `i`. -/
def word (s : Kernels) (b : Block) (d : Side) (i : ℕ) : ElemStatus :=
  s.status (⟨b.rank, d, i⟩, b.group)

def goto (s : Kernels) (b : Block) (p : Point) : Kernels := { s with block := update s.block b p }

inductive Step (s : Kernels) : Op → Kernels → Prop
  /-- `post` and `revoke` -/
  | host (x : ElemId) (e : KernelElem) (he : (G.list x.rank x.side)[x.index]? = some e)
      (hw : s.written x < x.side.words e) :
      Step s (.host x)
        { s with
          status := update s.status (x, s.written x) (if e.posted then .POSTED else .REVOKED)
          written := update s.written x (s.written x + 1) }
  | spin (b : Block) (d : Side) (i : ℕ) (assigned aborted : Bool) (e : KernelElem)
      (hg : b.group < G.numBlocks b.rank) (hb : s.block b = .poll d i assigned)
      (he : (G.list b.rank d)[i]? = some e) (hval : ¬Answered (s.word b d i)) :
      Step s (.block b aborted) (s.goto b (.poll d i true))
  | skip (b : Block) (d : Side) (i : ℕ) (assigned aborted : Bool) (e : KernelElem)
      (hg : b.group < G.numBlocks b.rank) (hb : s.block b = .poll d i assigned)
      (he : (G.list b.rank d)[i]? = some e) (hval : Answered (s.word b d i))
      (hskip : revoked (s.word b d i) assigned aborted = true ∨ (d = .put ∧ e.ngroups ≤ b.group)) :
      Step s (.block b aborted) (s.goto b (.poll d (i + 1) false))
  | enter (b : Block) (d : Side) (i : ℕ) (assigned aborted : Bool) (e : KernelElem)
      (hg : b.group < G.numBlocks b.rank) (hb : s.block b = .poll d i assigned)
      (he : (G.list b.rank d)[i]? = some e) (hval : Answered (s.word b d i))
      (hrevoked : revoked (s.word b d i) assigned aborted = false)
      (hgroup : d = .put → b.group < e.ngroups) :
      Step s (.block b aborted)
        (s.goto b (work i d))
  | endWalk (b : Block) (d : Side) (i : ℕ) (assigned aborted : Bool)
      (hg : b.group < G.numBlocks b.rank) (hb : s.block b = .poll d i assigned)
      (he : (G.list b.rank d)[i]? = none) :
      Step s (.block b aborted) (s.goto b (.free d 0))
  | copy (b : Block) (i : ℕ) (aborted : Bool) (hg : b.group < G.numBlocks b.rank)
      (hb : s.block b = .copy i) :
      Step s (.block b aborted)
        { s.goto b (.notify i) with
          copies := update s.copies (⟨b.rank, .put, i⟩, b.group)
            (s.copies (⟨b.rank, .put, i⟩, b.group) + 1) }
  /-- the loop of `devSyncSetNotify` has read `CTRAN_ALGO_NOTIFY_RESET` -/
  | notify (b : Block) (i : ℕ) (aborted : Bool) (e : KernelElem)
      (hg : b.group < G.numBlocks b.rank) (hb : s.block b = .notify i)
      (he : (G.list b.rank .put)[i]? = some e)
      (hslot : s.slot ⟨e.peer, b.rank, b.group⟩ = .NOTIFY_RESET) :
      Step s (.block b aborted) (s.goto b (.set i))
  | set (b : Block) (i : ℕ) (aborted : Bool) (e : KernelElem)
      (hg : b.group < G.numBlocks b.rank) (hb : s.block b = .set i)
      (he : (G.list b.rank .put)[i]? = some e) :
      Step s (.block b aborted)
        { s.goto b (.complete .put i) with
          slot := update s.slot ⟨e.peer, b.rank, b.group⟩ .NOTIFY_SET
          sets := update s.sets ⟨e.peer, b.rank, b.group⟩
            (s.sets ⟨e.peer, b.rank, b.group⟩ + 1) }
  /-- a thread of `devSyncWaitNotify` has read `CTRAN_ALGO_NOTIFY_SET` -/
  | see (r j i : ℕ) (ack : ℕ → Ack) (e : KernelElem) (hb : s.block ⟨r, 0⟩ = .gather i ack)
      (he : (G.list r .wait)[i]? = some e) (hj : j < e.ngroups) (hack : ack j = .waiting)
      (hslot : s.slot ⟨r, e.peer, j⟩ = .NOTIFY_SET) :
      Step s (.thread r j) (s.goto ⟨r, 0⟩ (.gather i (update ack j .seen)))
  | take (r j i : ℕ) (ack : ℕ → Ack) (e : KernelElem) (hb : s.block ⟨r, 0⟩ = .gather i ack)
      (he : (G.list r .wait)[i]? = some e) (hj : j < e.ngroups) (hack : ack j = .seen) :
      Step s (.thread r j)
        { s.goto ⟨r, 0⟩ (.gather i (update ack j .reset)) with
          slot := update s.slot ⟨r, e.peer, j⟩ .NOTIFY_RESET
          gets := update s.gets ⟨r, e.peer, j⟩ (s.gets ⟨r, e.peer, j⟩ + 1) }
  | gathered (b : Block) (i : ℕ) (ack : ℕ → Ack) (aborted : Bool) (e : KernelElem)
      (hg : b.group < G.numBlocks b.rank) (hb : s.block b = .gather i ack)
      (he : (G.list b.rank .wait)[i]? = some e) (hack : ∀ j < e.ngroups, ack j = .reset) :
      Step s (.block b aborted) (s.goto b (.complete .wait i))
  | complete (b : Block) (d : Side) (i : ℕ) (aborted : Bool) (hg : b.group < G.numBlocks b.rank)
      (hb : s.block b = .complete d i) :
      Step s (.block b aborted)
        { s.goto b (.poll d (i + 1) false) with
          status := update s.status (⟨b.rank, d, i⟩, b.group) .DONE }
  /-- `elemsFreeListByGroup` loads the word -/
  | load (b : Block) (d : Side) (i : ℕ) (aborted : Bool) (e : KernelElem)
      (hg : b.group < G.numBlocks b.rank) (hb : s.block b = .free d i)
      (he : (G.list b.rank d)[i]? = some e) :
      Step s (.block b aborted)
        (s.goto b (if s.word b d i = .REVOKED then .reset d i else .free d (i + 1)))
  | reset (b : Block) (d : Side) (i : ℕ) (aborted : Bool) (hg : b.group < G.numBlocks b.rank)
      (hb : s.block b = .reset d i) :
      Step s (.block b aborted)
        { s.goto b (.free d (i + 1)) with
          status := update s.status (⟨b.rank, d, i⟩, b.group) .RESET }
  | endFree (b : Block) (d : Side) (i : ℕ) (aborted : Bool) (hg : b.group < G.numBlocks b.rank)
      (hb : s.block b = .free d i) (he : (G.list b.rank d)[i]? = none) :
      Step s (.block b aborted) (s.goto b (afterList b.group d))

/-- The states of the runs whose steps all meet a condition. -/
inductive Reachable (cond : Kernels → Op → Prop) : Kernels → Prop
  | init : Reachable cond (init G)
  | step {s s' : Kernels} {op : Op} (h : Reachable cond s) (hstep : s.Step G op s')
      (hop : cond s op) : Reachable cond s'

end Kernels

/-- The number of elements of a list that a block has left behind, for lists of `n d` elements. -/
def Point.walked (n : Side → ℕ) : Point → Side → ℕ
  | .poll .put i _, .put | .copy i, .put | .notify i, .put | .set i, .put
  | .complete .put i, .put => i
  | .poll .wait i _, .wait | .gather i _, .wait | .complete .wait i, .wait => i
  | .poll .put _ _, .wait | .copy _, .wait | .notify _, .wait | .set _, .wait
  | .complete .put _, .wait | .free .put _, .wait | .reset .put _, .wait => 0
  | _, d => n d

namespace Kernels

variable (G : Group) (s : Kernels)

/-- The block has passed an element. -/
def Passed (b : Block) (d : Side) (i : ℕ) : Prop :=
  i < (s.block b).walked (G.lengths b.rank) d

/-- The block waits for a notification of this element no more. -/
def Gathered (b : Block) (i : ℕ) : Prop :=
  s.block b = .complete .wait i ∨ s.Passed G b .wait i

/-- The block has notified the receiver of a put. -/
def Notified (b : Block) (i : ℕ) : Prop :=
  s.block b = .complete .put i ∨ s.Passed G b .put i

/-- `KernelElem::isComplete` -/
def IsComplete (x : ElemId) (ngroups : ℕ) : Prop := ∀ g < ngroups, s.status (x, g) = .DONE

/-- How often a byte of the receive buffer has been stored for a put. -/
def stores (r i : ℕ) (e : KernelElem) (byte : ℕ) : ℕ :=
  ∑ g ∈ Finset.range (G.numBlocks r),
    s.copies (⟨r, .put, i⟩, g) * (e.copyBy (G.blockDim r) g).count (byte / e.size)

/-- In some continuation the host writes the word. -/
def StillWritten (x : ElemId) (g : ℕ) : Prop :=
  ∃ s' s'', ReflTransGen (fun s s' => ∃ op, Step G s op s') s s' ∧ s'.written x = g ∧
    Step G s' (.host x) s''

/-- Put `p` of rank `a` and wait `q` of rank `b` match: as many puts from `a` to `b` precede the one
as waits precede the other. -/
structure Match (a p b q : ℕ) (e e' : KernelElem) : Prop where
  put : (G.list a .put)[p]? = some e
  wait : (G.list b .wait)[q]? = some e'
  peer : e.peer = b
  peer' : e'.peer = a
  ordinal : ((G.list a .put).take p).countP (fun e => e.peer = b) =
    ((G.list b .wait).take q).countP fun e => e.peer = a

/-- What the elements are for. -/
structure Sound : Prop where
  polled : ∀ (b : Block) (d : Side) (i : ℕ) (assigned : Bool), b.group < G.numBlocks b.rank →
    s.block b = .poll d i assigned → i < G.lengths b.rank d →
    Answered (s.word b d i) ∨ s.StillWritten G ⟨b.rank, d, i⟩ b.group
  copied : ∀ (r i : ℕ) (e : KernelElem), (G.list r .put)[i]? = some e → e.posted = true →
    ∀ byte < e.nbytes, s.stores G r i e byte ≤ 1 ∧
      ((∀ g < e.ngroups, s.Passed G ⟨r, g⟩ .put i) → s.stores G r i e byte = 1)
  outside : ∀ (r i g : ℕ) (e : KernelElem), (G.list r .put)[i]? = some e → g < G.numBlocks r →
    e.posted = false ∨ e.ngroups ≤ g → s.copies (⟨r, .put, i⟩, g) = 0
  complete : ∀ (r : ℕ) (d : Side) (i : ℕ) (e : KernelElem), (G.list r d)[i]? = some e →
    e.posted = true →
    (s.IsComplete ⟨r, d, i⟩ (d.words e) ↔ ∀ g < d.words e, s.Passed G ⟨r, g⟩ d i)
  notified : ∀ a p b q e e', Match G a p b q e e' → e'.posted = true → s.Gathered G ⟨b, 0⟩ q →
    ∀ g < e.ngroups, s.Notified G ⟨a, g⟩ p
  slots : ∀ x : Slot, s.sets x = s.gets x + if s.slot x = .NOTIFY_SET then 1 else 0

/-- An `aborted` that the poll has not assigned reads as false where the element is posted. -/
def Meets : Op → Prop
  | .block b aborted => ∀ d i, s.block b = .poll d i false → s.word b d i = .POSTED →
    aborted = false
  | _ => True

end Kernels

end TorchComms.Algos.MultiPut
