import TorchComms.CollTrace.CommDumpPlugin

/-! # Handles and the events behind them

`recordCollective` makes an event and its handle, `AfterEnqueueKernel` hands the event over to the
tracing thread, and the thread destroys it. A call of `trigger` and a release by the tracing thread
are one step each; `recordCollective` is two, since it looks at the pending event before it takes
the lock of that event's handle.
-/
namespace TorchComms.CollTrace

open Function

/-- The triggers that succeeded are a history, which nothing reads. -/
structure CollTraceHandle where
  referenceInvalidated_ : Bool
  lastTriggerState_ : Option CollTraceHandleTriggerState
  accepted : List CollTraceHandleTriggerState
  deriving DecidableEq

def CollTraceHandle.create : CollTraceHandle := ⟨false, none, []⟩

/-- A `recordCollective` that has looked at the pending event, and what it found in the map. -/
structure RecordCall where
  pending : Option ℕ
  handlePtr : Option ℕ
  deriving DecidableEq

/-- `CollTrace` with its handles. Events are numbered as they are recorded, and each has the handle
of its number. -/
structure Handled where
  collId_ : ℕ
  pendingEnqueueColl_ : Option ℕ
  pendingTraceColls_ : List ℕ
  phase : TracePhase
  eventToHandleMap_ : ℕ → Option ℕ
  handle : ℕ → CollTraceHandle
  calls : List RecordCall

namespace Handled

def init : Handled where
  collId_ := 0
  pendingEnqueueColl_ := none
  pendingTraceColls_ := []
  phase := .getNextPendingEvent
  eventToHandleMap_ := fun _ => none
  handle := fun _ => .create
  calls := []

/-! ### The code -/

def invalidate (s : Handled) (h : ℕ) : Handled :=
  { s with handle := update s.handle h { s.handle h with referenceInvalidated_ := true } }

def erase (s : Handled) (e : ℕ) : Handled :=
  { s with eventToHandleMap_ := update s.eventToHandleMap_ e none }

/-- The handle that the map has for the event is invalidated and erased. -/
def release (s : Handled) (e : ℕ) : Handled :=
  match s.eventToHandleMap_ e with
  | none => s
  | some h => (s.invalidate h).erase e

/-- The pending event goes into the queue. -/
def enqueue (s : Handled) (e : ℕ) : Handled :=
  { s with
    pendingTraceColls_ := s.pendingTraceColls_ ++ [e]
    pendingEnqueueColl_ := none }

/-- Whether the call succeeds. A state of `none` is `NumTriggerStates`, and `waitOk` is what the
event's wait event returns. -/
def triggerEventState (maxPendingQueueSize : ℕ) (s : Handled) (e : ℕ)
    (state : Option CollTraceHandleTriggerState) (waitOk : Bool) : Bool × Handled :=
  match state with
  | some .BeforeEnqueueKernel => (s.pendingEnqueueColl_ = some e && waitOk, s)
  | some .AfterEnqueueKernel =>
    if s.pendingEnqueueColl_ = some e && waitOk then
      if s.pendingTraceColls_.length < maxPendingQueueSize then (true, s.enqueue e)
      else (false, { s.release e with pendingEnqueueColl_ := none })
    else (false, s)
  | some .KernelStarted | some .KernelFinished => (waitOk, s)
  | none => (false, s)

def checkValidity (lastTriggerState_ state : Option CollTraceHandleTriggerState) : Bool :=
  match state with
  | some state => checkTriggerStateValidity lastTriggerState_ state
  | none => lastTriggerState_.isSome

def accept (s : Handled) (h : ℕ) (state : CollTraceHandleTriggerState) : Handled :=
  { s with
    handle := update s.handle h { s.handle h with
      lastTriggerState_ := some state
      accepted := (s.handle h).accepted ++ [state] } }

def trigger (maxPendingQueueSize : ℕ) (s : Handled) (h : ℕ)
    (state : Option CollTraceHandleTriggerState) (waitOk : Bool) : Bool × Handled :=
  if (s.handle h).referenceInvalidated_ then (false, s)
  else if checkValidity (s.handle h).lastTriggerState_ state then
    match state, s.triggerEventState maxPendingQueueSize h state waitOk with
    | some state, (true, t) => (true, t.accept h state)
    | _, r => (false, r.2)
  else (false, s)

/-- `recordCollective` looks at the pending event and finds its handle. -/
def look (s : Handled) : Handled :=
  { s with
    calls := s.calls ++
      [⟨s.pendingEnqueueColl_, s.pendingEnqueueColl_.bind s.eventToHandleMap_⟩] }

/-- A new event is pending, with a new handle. -/
def record (s : Handled) : Handled :=
  { s with
    collId_ := s.collId_ + 1
    pendingEnqueueColl_ := some s.collId_
    eventToHandleMap_ := update s.eventToHandleMap_ s.collId_ (some s.collId_)
    handle := update s.handle s.collId_ .create }

/-- `recordCollective` invalidates the handle it found, erases the entry of the event that is
pending now, and puts a new event in its place. -/
def replace (s : Handled) (call : RecordCall) : Handled :=
  record <| match call.handlePtr with
    | none => s
    | some h =>
      match s.pendingEnqueueColl_ with
      | none => s.invalidate h
      | some e => (s.invalidate h).erase e

/-- The tracing thread goes on; the guard releases the event that it leaves. -/
def goOn (s : Handled) (phase : TracePhase) : Handled :=
  match s.phase.event, phase.event with
  | some e, none => { s.release e with phase := phase }
  | _, _ => { s with phase := phase }

inductive Op
  | trigger (h : ℕ) (state : Option CollTraceHandleTriggerState) (waitOk : Bool)
  | look
  | replace (i : ℕ)
  | take
  | thread (a : TraceAction)
  deriving DecidableEq

/-- A call of `trigger`, the two halves of `recordCollective`, and the tracing thread, which only
the destructor cancels. -/
inductive Step (maxPendingQueueSize : ℕ) (s : Handled) : Op → Handled → Prop
  | trigger (h : ℕ) (state : Option CollTraceHandleTriggerState) (waitOk : Bool)
      (hlt : h < s.collId_) : Step maxPendingQueueSize s (.trigger h state waitOk)
        (s.trigger maxPendingQueueSize h state waitOk).2
  | look : Step maxPendingQueueSize s .look s.look
  | replace (i : ℕ) (call : RecordCall) (hcall : s.calls[i]? = some call) :
      Step maxPendingQueueSize s (.replace i)
        { s.replace call with calls := s.calls.eraseIdx i }
  | take (e : ℕ) (rest : List ℕ) (phase : TracePhase) (hqueue : s.pendingTraceColls_ = e :: rest)
      (hphase : s.phase.next (.take e) = some phase) :
      Step maxPendingQueueSize s .take { s with phase := phase, pendingTraceColls_ := rest }
  | thread (a : TraceAction) (phase : TracePhase) (ha : ∀ e, a ≠ .take e) (hrun : a ≠ .cancelled)
      (hphase : s.phase.next a = some phase) :
      Step maxPendingQueueSize s (.thread a) (s.goOn phase)

/-- The states of runs in which every step meets a condition on the state before. -/
inductive Reachable (maxPendingQueueSize : ℕ) (meets : Handled → Op → Prop) : Handled → Prop
  | init : Reachable maxPendingQueueSize meets init
  | step {s s' : Handled} {op : Op} (h : Reachable maxPendingQueueSize meets s)
      (hstep : Step maxPendingQueueSize s op s') (hmeets : meets s op) :
      Reachable maxPendingQueueSize meets s'

/-! ### What should hold, and when it does -/

/-- The event is pending, queued or being traced. -/
def Live (s : Handled) (e : ℕ) : Prop :=
  s.pendingEnqueueColl_ = some e ∨ e ∈ s.pendingTraceColls_ ∨ s.phase.event = some e

/-- A legal order of accepted triggers: each state at most once, `BeforeEnqueueKernel` first, and
`KernelStarted` not after `KernelFinished`. -/
structure Legal (accepted : List CollTraceHandleTriggerState) : Prop where
  nodup : accepted.Nodup
  first : ∀ state ∈ accepted.head?, state = .BeforeEnqueueKernel
  order : accepted.Pairwise fun a b => ¬ (a = .KernelFinished ∧ b = .KernelStarted)

structure Sound (maxPendingQueueSize : ℕ) (s : Handled) : Prop where
  legal : ∀ h < s.collId_, Legal (s.handle h).accepted
  alive : ∀ h < s.collId_, ∀ state waitOk,
    (s.trigger maxPendingQueueSize h state waitOk).1 = true → s.Live h
  mapped : ∀ e h, s.eventToHandleMap_ e = some h ↔ s.Live e ∧ h = e
  valid : ∀ e, s.Live e → (s.handle e).referenceInvalidated_ = false

/-- A trigger whose repetition or order the last accepted trigger does not show. -/
def Overlooked (x : CollTraceHandle) : CollTraceHandleTriggerState → Prop
  | .BeforeEnqueueKernel =>
    x.lastTriggerState_ = some .KernelStarted ∨ x.lastTriggerState_ = some .KernelFinished
  | .AfterEnqueueKernel => False
  | .KernelStarted => x.lastTriggerState_ = some .AfterEnqueueKernel ∧
      (.KernelStarted ∈ x.accepted ∨ .KernelFinished ∈ x.accepted)
  | .KernelFinished => x.lastTriggerState_ = some .AfterEnqueueKernel ∧
      .KernelFinished ∈ x.accepted

/-- No trigger that would succeed is overlooked (a `BeforeEnqueueKernel` needs its event to be
pending). A `recordCollective` comes to its second half with the event pending that it looked at, or
with that event destroyed and none pending, or one whose handle nothing has been triggered on. -/
def Undisturbed (s : Handled) : Op → Prop
  | .trigger h (some state) true => (s.handle h).referenceInvalidated_ = false →
      (state = .BeforeEnqueueKernel → s.pendingEnqueueColl_ = some h) →
      ¬ Overlooked (s.handle h) state
  | .replace i => ∀ call, s.calls[i]? = some call →
      (∀ e, s.pendingEnqueueColl_ = some e → call.pending = some e ∨
        call.pending ≠ none ∧ (s.handle e).accepted = []) ∧
      ∀ e, call.pending = some e → s.pendingEnqueueColl_ = some e ∨ ¬ s.Live e
  | _ => True

end Handled

end TorchComms.CollTrace
