import Mathlib.Data.Nat.Notation

/-! # The tracing thread

`collTraceThread` takes one event after another from the queue and waits for its start, then for its
end. Plugins are called back in between; an error of a wait makes the thread go on with the next
event.
-/
namespace TorchComms.CollTrace

/-- What a call of `waitEvent->waitCollStart` or `waitCollEnd` returns. -/
inductive WaitResult
  | error
  | notYet
  | reached
  deriving DecidableEq, Repr

/-- Where the thread is, with the event that it holds. -/
inductive TracePhase
  | getNextPendingEvent
  | waitCollStart (e : ℕ)
  | collStarted (e : ℕ)
  | waitCollEnd (e : ℕ)
  | collEnded (e : ℕ)
  | finished
  deriving DecidableEq, Repr

/-- The thread's actions. A poll is one round of a wait loop, with the call of
`collEventProgressing`. -/
inductive TraceAction
  | take (e : ℕ)
  | poll (r : WaitResult)
  | afterCollKernelStart
  | afterCollKernelEnd
  | cancelled
  deriving DecidableEq, Repr

namespace TracePhase

/-- The event that is destroyed when the thread goes on to the next. -/
def event : TracePhase → Option ℕ
  | getNextPendingEvent | finished => none
  | waitCollStart e | collStarted e | waitCollEnd e | collEnded e => some e

/-- The event whose start or end the thread waits for. -/
def polled : TracePhase → Option ℕ
  | waitCollStart e | waitCollEnd e => some e
  | _ => none

def next : TracePhase → TraceAction → Option TracePhase
  | getNextPendingEvent, .take e => some (waitCollStart e)
  | waitCollStart _, .poll .error => some getNextPendingEvent
  | waitCollStart e, .poll .notYet => some (waitCollStart e)
  | waitCollStart e, .poll .reached => some (collStarted e)
  | collStarted e, .afterCollKernelStart => some (waitCollEnd e)
  | waitCollEnd _, .poll .error => some getNextPendingEvent
  | waitCollEnd e, .poll .notYet => some (waitCollEnd e)
  | waitCollEnd e, .poll .reached => some (collEnded e)
  | collEnded _, .afterCollKernelEnd => some getNextPendingEvent
  | _, .cancelled => some finished
  | _, _ => none

variable {p p' : TracePhase} {a : TraceAction} {e : ℕ}

theorem event_of_polled (h : p.polled = some e) : p.event = some e := by
  cases p <;> simp_all [polled, event]

/-- No action but `take` brings an event. -/
theorem event_next (h : p.next a = some p') (ha : ∀ e, a ≠ .take e) (he : p'.event = some e) :
    p.event = some e := by
  cases p <;> cases a with
  | take => exact absurd rfl (ha _)
  | poll r => cases r <;> simp_all [next] <;> subst h <;> simp_all [event]
  | _ => simp_all [next] <;> subst h <;> simp_all [event]

theorem next_take (h : p.next (.take e) = some p') :
    p = getNextPendingEvent ∧ p' = waitCollStart e := by
  cases p <;> simp_all [next]

theorem polled_of_poll {r : WaitResult} (h : p.next (.poll r) = some p') :
    ∃ e, p.polled = some e := by
  cases p <;> simp_all [next, polled]

end TracePhase

end TorchComms.CollTrace
