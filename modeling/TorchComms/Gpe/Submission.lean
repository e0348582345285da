import TorchComms.CommSpecs
import TorchComms.Foundation.Simulation
import TorchComms.Gpe.KernelFlag

/-! # Submitting to the GPE

`submit` takes a kernel flag, hands a command to the GPE thread, or to a graph that is being
captured, and launches the kernel. Commands, kernels, streams and the pool of flags are the state; a
call of `submit` is one step of it, a load or store of a flag word another.
-/
namespace TorchComms.Gpe

open Foundation Function

/-- What one `submit` is given, and what the CUDA calls that it makes return. An operation group
stands with its function; `none` is the empty one. The kernel's function is looked up or, without
clusters, given an attribute. -/
structure SubmitArgs where
  opGroup : Option ℕ
  devState : Bool
  perBlockFlag : Bool
  numBlocks : ℕ
  stream : ℕ
  captureInfo : CommResult
  capturing : Bool
  addHostNode : CommResult
  createUserObject : CommResult
  retainUserObject : CommResult
  preRecord : CommResult
  preWait : CommResult
  kernelFunction : CommResult
  kernelLaunch : CommResult
  postRecord : CommResult
  postWait : CommResult
  deriving DecidableEq, Repr

structure Cmd where
  opGroup : ℕ
  kernelFlag : Option ℕ
  deriving DecidableEq, Repr

structure Kernel where
  kernelFlag : Option ℕ
  numGroups : ℕ
  block : ℕ → BlockPhase

inductive GpeThread
  | idle
  | busy (cmd : Cmd) (phase : GpePhase)
  | joined

/-- `none` is `execOrderStream_`. -/
inductive StreamOp
  | record (stream : Option ℕ)
  | wait (stream : Option ℕ)
  | kernel (stream : ℕ)
  deriving DecidableEq, Repr

/-- Everything but the pool. `none` in the queue is `TERMINATE`. Graphs hold the host nodes and
kernels that captures have put into them, and `streams` is all that was put into streams. -/
structure GpeWork where
  cmdQueue_ : List (Option Cmd)
  thread : GpeThread
  hostNodes : List Cmd
  graphKernels : List Kernel
  launched : List Kernel
  lastUserStream_ : ℕ
  streams : List StreamOp

structure GpeImpl where
  work : GpeWork
  kernelFlagPool : KernelFlagPool

/-- All flags are free. -/
def GpeImpl.init (capacity lastUserStream : ℕ) : GpeImpl where
  work := ⟨[], .idle, [], [], [], lastUserStream, []⟩
  kernelFlagPool :=
    { item := fun _ => ⟨fun _ => .KERNEL_UNSET, 1⟩
      freeItems_ := (List.range capacity).reverse
      inuseItems_ := []
      nodup := by
        rw [List.append_nil, List.nodup_reverse]
        exact List.nodup_range }

/-! ### `submit` -/

/-- How the part behind the taking of the flag ends: with a return, or at the label `fail`. -/
inductive SubmitExit
  | ret
  | fail
  deriving DecidableEq, Repr

namespace SubmitArgs

def numGroups (a : SubmitArgs) : ℕ := if a.perBlockFlag then a.numBlocks else 1

def kernel (a : SubmitArgs) (kernelFlag : Option ℕ) : Kernel :=
  ⟨kernelFlag, a.numGroups, fun _ => .scheduled⟩

end SubmitArgs

namespace GpeWork

def cmdEnqueue (w : GpeWork) (cmd : Cmd) : GpeWork :=
  { w with cmdQueue_ := w.cmdQueue_ ++ [some cmd] }

/-- The host node is in the graph as soon as the first of three calls has succeeded. -/
def addHostNode (w : GpeWork) (a : SubmitArgs) (cmd : Cmd) : CommResult × GpeWork :=
  if a.addHostNode ≠ .commSuccess then (a.addHostNode, w)
  else
    let added := { w with hostNodes := w.hostNodes ++ [cmd] }
    if a.createUserObject ≠ .commSuccess then (a.createUserObject, added)
    else (a.retainUserObject, added)

/-- The command goes to the thread, or into the graph. `preLaunchGraphPrepare` always succeeds. -/
def handOver (w : GpeWork) (a : SubmitArgs) (kernelFlag : Option ℕ) : CommResult × GpeWork :=
  match a.opGroup with
  | none => (.commSuccess, w)
  | some opGroup =>
    if a.capturing then w.addHostNode a ⟨opGroup, kernelFlag⟩
    else (.commSuccess, w.cmdEnqueue ⟨opGroup, kernelFlag⟩)

def streamWaitStream (w : GpeWork) (curStream prevStream : Option ℕ)
    (record wait : CommResult) : CommResult × GpeWork :=
  if record ≠ .commSuccess then (record, w)
  else
    let recorded := { w with streams := w.streams ++ [.record prevStream] }
    if wait ≠ .commSuccess then (wait, recorded)
    else (.commSuccess, { recorded with streams := recorded.streams ++ [.wait curStream] })

def preKernelLaunch (w : GpeWork) (a : SubmitArgs) : CommResult × GpeWork :=
  if a.stream = w.lastUserStream_ then (.commSuccess, w)
  else { w with lastUserStream_ := a.stream }.streamWaitStream (some a.stream) none a.preRecord
    a.preWait

def postKernelLaunch (w : GpeWork) (a : SubmitArgs) : CommResult × GpeWork :=
  w.streamWaitStream none (some a.stream) a.postRecord a.postWait

def launchKernel (w : GpeWork) (a : SubmitArgs) (kernelFlag : Option ℕ) : GpeWork :=
  if a.capturing then { w with graphKernels := w.graphKernels ++ [a.kernel kernelFlag] }
  else
    { w with
      launched := w.launched ++ [a.kernel kernelFlag]
      streams := w.streams ++ [.kernel a.stream] }

/-- The order between streams is not kept up in a capture. -/
def beforeLaunch (w : GpeWork) (a : SubmitArgs) : CommResult × GpeWork :=
  if a.capturing then (.commSuccess, w) else w.preKernelLaunch a

def afterLaunch (w : GpeWork) (a : SubmitArgs) : CommResult × GpeWork :=
  if a.capturing then (.commSuccess, w) else w.postKernelLaunch a

def launch (w : GpeWork) (a : SubmitArgs) (kernelFlag : Option ℕ) :
    CommResult × SubmitExit × GpeWork :=
  if a.kernelFunction ≠ .commSuccess then (a.kernelFunction, .fail, w)
  else if a.kernelLaunch ≠ .commSuccess then (a.kernelLaunch, .fail, w)
  else
    let post := (w.launchKernel a kernelFlag).afterLaunch a
    (post.1, .ret, post.2)

/-- `submit` from the point on at which it has its flag. -/
def proceed (w : GpeWork) (a : SubmitArgs) (kernelFlag : Option ℕ) :
    CommResult × SubmitExit × GpeWork :=
  if a.captureInfo ≠ .commSuccess then (a.captureInfo, .ret, w)
  else
    match w.handOver a kernelFlag with
    | (.commSuccess, w) =>
      match w.beforeLaunch a with
      | (.commSuccess, w) => w.launch a kernelFlag
      | (res, w) => (res, .ret, w)
    | (res, w) => (res, .fail, w)

end GpeWork

/-- What `submit` leaves, with the flag that it took from the pool. -/
structure Submitted where
  result : CommResult
  kernelFlag : Option ℕ
  gpe : GpeImpl

namespace GpeImpl

variable (s : GpeImpl) (a : SubmitArgs)

/-- The flag is out of the pool; the label `fail` resets it. -/
def withFlag (k : ℕ) (pool : KernelFlagPool) : Submitted :=
  let popped := pool.setItem k { pool.item k with numGroups_ := a.numGroups }
  let r := s.work.proceed a (some k)
  { result := r.1
    kernelFlag := some k
    gpe := ⟨r.2.2, if r.2.1 = .fail then popped.setItem k (popped.item k).reset else popped⟩ }

def withoutFlag : Submitted :=
  let r := s.work.proceed a none
  ⟨r.1, none, ⟨r.2.2, s.kernelFlagPool⟩⟩

/-- `submit` behind the reclaiming of flags. -/
def submitReclaimed : Submitted :=
  if s.kernelFlagPool.freeItems_ = [] then ⟨.commInternalError, none, s⟩
  else if a.devState = false then ⟨.commInternalError, none, s⟩
  else
    match a.opGroup with
    | none => s.withoutFlag a
    | some _ =>
      match s.kernelFlagPool.pop with
      | none => s.withoutFlag a
      | some (k, pool) => s.withFlag a k pool

def reclaimed : GpeImpl :=
  if s.kernelFlagPool.freeItems_ = [] then ⟨s.work, s.kernelFlagPool.reclaim⟩ else s

def submit : Submitted := s.reclaimed.submitReclaimed a

end GpeImpl

/-! ### All that happens -/

inductive GpeEvent
  | reclaim
  | submit (a : SubmitArgs) (result : CommResult)
  | submitHost (opGroup : ℕ)
  | terminate
  | callback (cmd : Cmd)
  | replay (kernel : Kernel)
  | dequeue
  | complete
  | thread (testAbort : Bool)
  | block (n i : ℕ)

/-- Steps that leave the flags alone. A graph that runs makes the callbacks of its host nodes and
launches its kernels. A command without a flag is of the host only. -/
inductive GpeWork.Step (w : GpeWork) : GpeEvent → GpeWork → Prop
  | submitHost (opGroup : ℕ) : w.Step (.submitHost opGroup) (w.cmdEnqueue ⟨opGroup, none⟩)
  | terminate : w.Step .terminate { w with cmdQueue_ := w.cmdQueue_ ++ [none] }
  | callback (cmd : Cmd) (hcmd : cmd ∈ w.hostNodes) : w.Step (.callback cmd) (w.cmdEnqueue cmd)
  | replay (kernel : Kernel) (hkernel : kernel ∈ w.graphKernels) :
      w.Step (.replay kernel) { w with launched := w.launched ++ [kernel] }
  | join (rest : List (Option Cmd)) (hidle : w.thread = .idle)
      (hqueue : w.cmdQueue_ = none :: rest) :
      w.Step .dequeue { w with cmdQueue_ := rest, thread := .joined }
  | dequeue (cmd : Cmd) (rest : List (Option Cmd)) (hidle : w.thread = .idle)
      (hqueue : w.cmdQueue_ = some cmd :: rest) :
      w.Step .dequeue { w with cmdQueue_ := rest, thread := .busy cmd .waitStart }
  | complete (cmd : Cmd) (phase : GpePhase) (hthread : w.thread = .busy cmd phase)
      (hflag : cmd.kernelFlag = none) : w.Step .complete { w with thread := .idle }

def GpeThread.goOn (cmd : Cmd) (phase : GpePhase) : GpeThread :=
  if phase = .done then .idle else .busy cmd phase

def Kernel.goOn (kernel : Kernel) (i : ℕ) (phase : BlockPhase) : Kernel :=
  { kernel with block := update kernel.block i phase }

/-- One step. `submit` finds any of the flags that can be had: in which order the pool hands them
out is not told apart. -/
inductive GpeImpl.Step (abortEnabled enableCancellableWaits : Bool) (s : GpeImpl) :
    GpeEvent → GpeImpl → Prop
  | work {e : GpeEvent} {w : GpeWork} (h : s.work.Step e w) :
      s.Step abortEnabled enableCancellableWaits e ⟨w, s.kernelFlagPool⟩
  | reclaim : s.Step abortEnabled enableCancellableWaits .reclaim
      ⟨s.work, s.kernelFlagPool.reclaim⟩
  | outOfFlags (a : SubmitArgs) (hnone : ∀ k, ¬ s.kernelFlagPool.Available k) :
      s.Step abortEnabled enableCancellableWaits (.submit a .commInternalError) s
  | badDevState (a : SubmitArgs) (k : ℕ) (hk : s.kernelFlagPool.Available k)
      (hdev : a.devState = false) :
      s.Step abortEnabled enableCancellableWaits (.submit a .commInternalError) s
  | submitKernel (a : SubmitArgs) (k : ℕ) (hk : s.kernelFlagPool.Available k)
      (hdev : a.devState = true) (hop : a.opGroup = none) :
      s.Step abortEnabled enableCancellableWaits (.submit a (s.withoutFlag a).result)
        (s.withoutFlag a).gpe
  | submit (a : SubmitArgs) (k opGroup : ℕ) (hk : s.kernelFlagPool.Available k)
      (hdev : a.devState = true) (hop : a.opGroup = some opGroup) :
      s.Step abortEnabled enableCancellableWaits
        (.submit a (s.withFlag a k (s.kernelFlagPool.take k)).result)
        (s.withFlag a k (s.kernelFlagPool.take k)).gpe
  | thread (testAbort : Bool) (cmd : Cmd) (phase phase' : GpePhase) (k : ℕ)
      (hthread : s.work.thread = .busy cmd phase) (hflag : cmd.kernelFlag = some k)
      (hnext : phase.next (s.kernelFlagPool.item k).numGroups_ abortEnabled testAbort
        (s.kernelFlagPool.item k).flag_ = some phase') :
      s.Step abortEnabled enableCancellableWaits (.thread testAbort)
        ⟨{ s.work with thread := .goOn cmd phase' },
          s.kernelFlagPool.setItem k { s.kernelFlagPool.item k with
            flag_ := phase.effect (s.kernelFlagPool.item k).numGroups_
              (s.kernelFlagPool.item k).flag_ }⟩
  | block (n i k : ℕ) (kernel : Kernel) (phase : BlockPhase) (v : KernelFlag)
      (hkernel : s.work.launched[n]? = some kernel) (hflag : kernel.kernelFlag = some k)
      (hi : i < kernel.numGroups)
      (hstep : BlockStep enableCancellableWaits (kernel.block i)
        ((s.kernelFlagPool.item k).flag_ i) phase v) :
      s.Step abortEnabled enableCancellableWaits (.block n i)
        ⟨{ s.work with launched := s.work.launched.set n (kernel.goOn i phase) },
          s.kernelFlagPool.setItem k { s.kernelFlagPool.item k with
            flag_ := update (s.kernelFlagPool.item k).flag_ i v }⟩

/-! ### What a failed call should leave -/

/-- A command or kernel that is still to use the flag. -/
inductive GpeWork.References (w : GpeWork) (k : ℕ) : Prop
  | queued (cmd : Cmd) (hmem : some cmd ∈ w.cmdQueue_) (hflag : cmd.kernelFlag = some k)
  | running (cmd : Cmd) (phase : GpePhase) (hthread : w.thread = .busy cmd phase)
      (hflag : cmd.kernelFlag = some k)
  | hostNode (cmd : Cmd) (hmem : cmd ∈ w.hostNodes) (hflag : cmd.kernelFlag = some k)
  | kernel (kernel : Kernel) (i : ℕ) (hmem : kernel ∈ w.launched)
      (hflag : kernel.kernelFlag = some k) (hi : i < kernel.numGroups)
      (hblock : kernel.block i ≠ .exited)
  | graphKernel (kernel : Kernel) (hmem : kernel ∈ w.graphKernels)
      (hflag : kernel.kernelFlag = some k)

/-- Nothing is left of the call: no command or kernel of it is queued or in a graph or a stream,
the flags that it took or reclaimed can be had and have no user, and whatever happens later could as
well have happened without the call. -/
structure GpeImpl.AsItWas (abortEnabled enableCancellableWaits : Bool) (s : GpeImpl)
    (r : Submitted) : Prop where
  work : r.gpe.work = s.work
  flag : ∀ k, r.kernelFlag = some k ∨
      k ∈ r.gpe.kernelFlagPool.freeItems_ ∧ k ∉ s.kernelFlagPool.freeItems_ →
    r.gpe.kernelFlagPool.Available k ∧ ¬ r.gpe.work.References k
  later : Alike (GpeImpl.Step abortEnabled enableCancellableWaits) GpeImpl.work s r.gpe

/-- The call fails before it takes a flag, or when it inserts the host node, and the flags that it
takes or reclaims have no user. (A flag without words needs no reset, so that one may also be lost
at the query of the capture.) -/
structure GpeImpl.FailsEarly (s : GpeImpl) (a : SubmitArgs) : Prop where
  unused : s.kernelFlagPool.freeItems_ = [] →
    ∀ k, s.kernelFlagPool.Available k → ¬ s.work.References k
  step : s.reclaimed.kernelFlagPool.freeItems_ = [] ∨ a.devState = false ∨
    (∀ k ∈ s.reclaimed.kernelFlagPool.freeItems_.head?, ¬ s.work.References k) ∧
      (a.captureInfo = .commSuccess ∧ a.capturing = true ∧ a.addHostNode ≠ .commSuccess ∨
        a.captureInfo ≠ .commSuccess ∧ a.numGroups = 0)

end TorchComms.Gpe
