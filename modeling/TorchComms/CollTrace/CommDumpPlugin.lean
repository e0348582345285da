import TorchComms.CollTrace.TracingThread
import Mathlib.Data.Int.Notation
import Mathlib.Logic.Function.Basic

/-! # The dump plugin

`CommDumpPlugin` keeps the collectives that are pending, the one that runs and the last ones that
ended. The enqueuing thread writes a collective's record into a queue of its own, the tracing thread
and `dump` empty that queue under the lock of the dump. Records are numbered by `collId_`.
-/
namespace TorchComms.CollTrace

open Function

structure CommDumpConfig where
  pastCollSize : ℤ
  pendingCollSize : ℕ
  deriving DecidableEq, Repr

structure CollTraceDump where
  pastColls : List ℕ
  currentColl : Option ℕ
  pendingColls : List ℕ
  deriving DecidableEq, Repr

/-- The loop that makes room in `pastColls`. `pop_front` of an empty deque is undefined. -/
def evict (pastCollSize : ℤ) : List ℕ → Option (List ℕ)
  | [] => if 0 ≤ pastCollSize ∧ pastCollSize ≤ 0 then none else some []
  | c :: past =>
    if 0 ≤ pastCollSize ∧ pastCollSize ≤ (c :: past).length then evict pastCollSize past
    else some (c :: past)

namespace CollTraceDump

/-- `afterCollKernelStart` behind the drain; what does not match leaves the dump as it is. -/
def start (d : CollTraceDump) (coll : ℕ) : CollTraceDump :=
  match d.pendingColls with
  | [] => d
  | front :: rest =>
    if front ≠ coll then d
    else if d.currentColl ≠ none then d
    else { d with currentColl := some front, pendingColls := rest }

/-- `afterCollKernelEnd` behind the drain, and `none` where its behaviour is undefined. -/
def finish (config : CommDumpConfig) (d : CollTraceDump) (coll : ℕ) : Option CollTraceDump :=
  if d.currentColl ≠ some coll then some d
  else
    (evict config.pastCollSize d.pastColls).map fun past =>
      { d with pastColls := past ++ [coll], currentColl := none }

/-- The copy that `dump` returns, which shows the next pending collective as the current one. -/
def copy (d : CollTraceDump) : CollTraceDump :=
  match d.currentColl, d.pendingColls with
  | none, front :: rest => { d with currentColl := some front, pendingColls := rest }
  | _, _ => d

end CollTraceDump

inductive CollTraceHandleTriggerState
  | BeforeEnqueueKernel
  | AfterEnqueueKernel
  | KernelStarted
  | KernelFinished
  deriving DecidableEq, Repr

/-- `lastTriggerState_` is `none` before the first trigger. -/
def checkTriggerStateValidity (lastTriggerState_ : Option CollTraceHandleTriggerState)
    (state : CollTraceHandleTriggerState) : Bool :=
  match lastTriggerState_ with
  | none => state = .BeforeEnqueueKernel
  | some last =>
    if last = state then false
    else if state = .KernelStarted ∧ last ≠ .BeforeEnqueueKernel ∧ last ≠ .AfterEnqueueKernel then
      false
    else if state = .KernelFinished ∧ last ≠ .KernelStarted ∧ last ≠ .BeforeEnqueueKernel ∧
        last ≠ .AfterEnqueueKernel then
      false
    else true

/-- Who empties `newPendingColls_`. -/
inductive Reader
  | thread
  | dump
  deriving DecidableEq, Repr

/-- `CollTrace` with the plugin. `drain` is the holder of the dump's lock with the number of records
that it has read. The records that the plugin accepted, the collectives that the tracing thread is
done with, and those of them whose start and end it saw are a history, which nothing reads. -/
structure Dumped where
  collId_ : ℕ
  pendingEnqueueColl_ : Option ℕ
  lastTriggerState_ : Option CollTraceHandleTriggerState
  pendingTraceColls_ : List ℕ
  phase : TracePhase
  newPendingColls_ : List ℕ
  drain : Option (Reader × ℕ)
  collTraceDump_ : CollTraceDump
  undefined : Bool
  accepted : ℕ → Bool
  left : List ℕ
  ended : List ℕ

namespace Dumped

def init : Dumped where
  collId_ := 0
  pendingEnqueueColl_ := none
  lastTriggerState_ := none
  pendingTraceColls_ := []
  phase := .getNextPendingEvent
  newPendingColls_ := []
  drain := none
  collTraceDump_ := ⟨[], none, []⟩
  undefined := false
  accepted := fun _ => false
  left := []
  ended := []

/-- A new collective takes the place of one that is still pending. -/
def recordCollective (s : Dumped) : Dumped :=
  { s with
    collId_ := s.collId_ + 1
    pendingEnqueueColl_ := some s.collId_
    lastTriggerState_ := none }

/-- The plugin takes the record unless its queue is full. -/
def afterCollKernelScheduled (config : CommDumpConfig) (s : Dumped) (coll : ℕ) : Dumped :=
  if s.newPendingColls_.length < config.pendingCollSize then
    { s with
      newPendingColls_ := s.newPendingColls_ ++ [coll]
      accepted := update s.accepted coll true }
  else s

/-- The pending collective moves to the tracing thread, or is dropped when the queue is full. -/
def enqueue (maxPendingQueueSize : ℕ) (s : Dumped) (coll : ℕ) : Dumped :=
  if s.pendingTraceColls_.length < maxPendingQueueSize then
    { s with
      pendingTraceColls_ := s.pendingTraceColls_ ++ [coll]
      pendingEnqueueColl_ := none }
  else { s with pendingEnqueueColl_ := none }

/-- A trigger of the pending collective's handle; `waitOk` is what its wait event returns. -/
def trigger (config : CommDumpConfig) (maxPendingQueueSize : ℕ) (s : Dumped) (coll : ℕ)
    (state : CollTraceHandleTriggerState) (waitOk : Bool) : Dumped :=
  if checkTriggerStateValidity s.lastTriggerState_ state then
    if state = .AfterEnqueueKernel then
      if waitOk then (s.afterCollKernelScheduled config coll).enqueue maxPendingQueueSize coll
      else s.afterCollKernelScheduled config coll
    else if waitOk then { s with lastTriggerState_ := some state }
    else s
  else s

inductive Op
  | recordCollective
  | trigger (state : CollTraceHandleTriggerState) (waitOk : Bool)
  | take
  | poll (r : WaitResult)
  | lock (r : Reader)
  | read
  | dumpRead
  | afterCollKernelStart
  | afterCollKernelEnd
  deriving DecidableEq

/-- A drain ends when the queue is empty, or after `pendingCollSize + 1` records with an error. -/
def Drained (config : CommDumpConfig) (s : Dumped) (n : ℕ) : Prop :=
  s.newPendingColls_ = [] ∨ n = config.pendingCollSize + 1

/-- A handle whose collective is no longer pending reaches nothing but its wait event. -/
inductive Step (config : CommDumpConfig) (maxPendingQueueSize : ℕ) (s : Dumped) :
    Op → Dumped → Prop
  | recordCollective : Step config maxPendingQueueSize s .recordCollective s.recordCollective
  | trigger (coll : ℕ) (state : CollTraceHandleTriggerState) (waitOk : Bool)
      (hcoll : s.pendingEnqueueColl_ = some coll) :
      Step config maxPendingQueueSize s (.trigger state waitOk)
        (s.trigger config maxPendingQueueSize coll state waitOk)
  | take (coll : ℕ) (rest : List ℕ) (hphase : s.phase = .getNextPendingEvent)
      (hqueue : s.pendingTraceColls_ = coll :: rest) :
      Step config maxPendingQueueSize s .take
        { s with phase := .waitCollStart coll, pendingTraceColls_ := rest }
  | poll (r : WaitResult) (phase : TracePhase) (hphase : s.phase.next (.poll r) = some phase) :
      Step config maxPendingQueueSize s (.poll r)
        { s with
          phase := phase
          left := if phase.event = none then s.left ++ s.phase.event.toList else s.left }
  | lock (r : Reader) (hfree : s.drain = none)
      (hphase : r = .thread → ∃ coll, s.phase = .collStarted coll ∨ s.phase = .collEnded coll) :
      Step config maxPendingQueueSize s (.lock r) { s with drain := some (r, 0) }
  | read (r : Reader) (n coll : ℕ) (rest : List ℕ) (hdrain : s.drain = some (r, n))
      (hmax : n < config.pendingCollSize + 1) (hqueue : s.newPendingColls_ = coll :: rest) :
      Step config maxPendingQueueSize s .read
        { s with
          newPendingColls_ := rest
          drain := some (r, n + 1)
          collTraceDump_ :=
            { s.collTraceDump_ with pendingColls := s.collTraceDump_.pendingColls ++ [coll] } }
  | dumpRead (n : ℕ) (hdrain : s.drain = some (.dump, n)) (hstop : s.Drained config n) :
      Step config maxPendingQueueSize s .dumpRead { s with drain := none }
  | afterCollKernelStart (coll n : ℕ) (hphase : s.phase = .collStarted coll)
      (hdrain : s.drain = some (.thread, n)) (hstop : s.Drained config n) :
      Step config maxPendingQueueSize s .afterCollKernelStart
        { s with
          phase := .waitCollEnd coll
          drain := none
          collTraceDump_ :=
            if n = config.pendingCollSize + 1 then s.collTraceDump_
            else s.collTraceDump_.start coll }
  | afterCollKernelEnd (coll n : ℕ) (d : Option CollTraceDump)
      (hphase : s.phase = .collEnded coll)
      (hdrain : s.drain = some (.thread, n)) (hstop : s.Drained config n)
      (hd : d = if n = config.pendingCollSize + 1 then some s.collTraceDump_
        else s.collTraceDump_.finish config coll) :
      Step config maxPendingQueueSize s .afterCollKernelEnd
        { s with
          phase := .getNextPendingEvent
          drain := none
          collTraceDump_ := d.getD s.collTraceDump_
          undefined := s.undefined || d.isNone
          left := s.left ++ [coll]
          ended := s.ended ++ [coll] }

/-- The states of runs in which every step meets a condition on the state before. -/
inductive Reachable (config : CommDumpConfig) (maxPendingQueueSize : ℕ)
    (meets : Dumped → Op → Prop) : Dumped → Prop
  | init : Reachable config maxPendingQueueSize meets init
  | step {s s' : Dumped} {op : Op} (h : Reachable config maxPendingQueueSize meets s)
      (hstep : Step config maxPendingQueueSize s op s') (hmeets : meets s op) :
      Reachable config maxPendingQueueSize meets s'

end Dumped
end TorchComms.CollTrace
