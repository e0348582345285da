import TorchComms.CommSpecs
import Mathlib.Data.List.Basic

/-! # The RDMA transport

`write` and `waitForWrite` put a work with a promise into a list that `progress` walks. The request
of a write is part of its work. The IB layer keeps a pointer to it from when the transfer is queued
until it has completed the request, and it counts the notifications that arrive. `checkNotify`
polls before it looks at the count.
-/
namespace TorchComms.Transport

open Function

/-- `FB_COMMCHECK` returns. -/
def failed (res : CommResult) : Bool := res ≠ .commSuccess ∧ res ≠ .commInProgress

/-- A work is its call. -/
structure Work where
  id : ℕ
  isWrite : Bool
  deriving DecidableEq, Repr

/-- A value set on a promise. The notifications that have arrived by then are a ghost. -/
structure Resolved where
  work : Work
  res : CommResult
  arrived : ℕ
  deriving DecidableEq, Repr

/-! ## The IB layer -/

/-- The requests that are still pointed to, the state of all requests, and the notifications. What
has been transferred, and how many notifications have arrived, are ghosts. -/
structure Ib where
  retained : List ℕ
  complete : ℕ → Bool
  notifyCount : ℕ
  transferred : ℕ → Bool
  arrived : ℕ

/-- What a poll finds. -/
inductive Event
  | complete (id : ℕ)
  | notify
  deriving DecidableEq, Repr

/-- A call of `progressInternal`: what it has processed until it returned. -/
structure Poll where
  events : List Event
  res : CommResult
  deriving DecidableEq, Repr

namespace Ib

/-- The pointer is kept. -/
def retain (ib : Ib) (id : ℕ) : Ib := { ib with retained := ib.retained ++ [id] }

/-- A request that is pointed to is completed once its data has been transferred. -/
def event (ib : Ib) : Event → Ib
  | .complete id =>
    if id ∈ ib.retained ∧ ib.transferred id = true then
      { ib with retained := ib.retained.filter (· ≠ id), complete := update ib.complete id true }
    else ib
  | .notify => { ib with notifyCount := ib.notifyCount + 1, arrived := ib.arrived + 1 }

def poll (ib : Ib) (p : Poll) : Ib := p.events.foldl event ib

def checkNotify (ib : Ib) (p : Poll) : CommResult × Bool × Ib :=
  if failed p.res then (p.res, false, ib.poll p)
  else if 0 < (ib.poll p).notifyCount then
    (.commSuccess, true, { ib.poll p with notifyCount := (ib.poll p).notifyCount - 1 })
  else (.commSuccess, false, ib.poll p)

end Ib

/-! ## The transport -/

/-- `accepted` are the works of the calls that have returned a future. -/
structure State where
  pendingWorks : List Work
  ib : Ib
  next : ℕ
  accepted : List Work
  promises : List Resolved

namespace State

def init : State where
  pendingWorks := []
  ib := ⟨[], fun _ => false, 0, fun _ => false, 0⟩
  next := 0
  accepted := []
  promises := []

def setValue (s : State) (w : Work) (res : CommResult) : State :=
  { s with promises := s.promises ++ [⟨w, res, s.ib.arrived⟩] }

def push (s : State) (isWrite : Bool) : State :=
  { s with
    pendingWorks := s.pendingWorks ++ [⟨s.next, isWrite⟩]
    accepted := s.accepted ++ [⟨s.next, isWrite⟩]
    next := s.next + 1 }

/-- The work is destroyed where `iput` returns an error, which it may do before or after it has
queued the transfer. -/
def write (s : State) (res : CommResult) (queued : Bool) : State :=
  if failed res then
    { s with ib := if queued then s.ib.retain s.next else s.ib, next := s.next + 1 }
  else { s with ib := s.ib.retain s.next }.push true

def waitForWrite (s : State) : State := s.push false

/-- The walk over the pending works, those in front of the iterator first. -/
def visit (res : CommResult) (polls : ℕ → Poll) : List Work → List Work → State → State
  | kept, [], s => { s with pendingWorks := kept }
  | kept, w :: ws, s =>
    if failed res then visit res polls kept ws (s.setValue w res)
    else if w.isWrite && s.ib.complete w.id then
      visit res polls kept ws (s.setValue w .commSuccess)
    else if !w.isWrite then
      match s.ib.checkNotify (polls w.id) with
      | (waitRes, done, ib) =>
        if waitRes ≠ .commSuccess ∨ done = true then
          visit res polls kept ws ({ s with ib := ib }.setValue w waitRes)
        else visit res polls (kept ++ [w]) ws { s with ib := ib }
    else visit res polls (kept ++ [w]) ws s

/-- The IB layer is polled once, and once more for each pending wait. -/
def progress (s : State) (first : Poll) (polls : ℕ → Poll) : State :=
  visit first.res polls [] s.pendingWorks { s with ib := s.ib.poll first }

end State

/-- A data transfer ends in the background. -/
inductive Op
  | write (res : CommResult) (queued : Bool)
  | waitForWrite
  | transfer (id : ℕ)
  | progress (first : Poll) (polls : ℕ → Poll)

def step (s : State) : Op → State
  | .write res queued => s.write res queued
  | .waitForWrite => s.waitForWrite
  | .transfer id => { s with ib := { s.ib with transferred := update s.ib.transferred id true } }
  | .progress first polls => s.progress first polls

/-- The states of the runs whose steps all meet a condition. -/
inductive Reachable (cond : State → Op → Prop) : State → Prop
  | init : Reachable cond .init
  | step {s : State} (op : Op) (h : Reachable cond s) (hop : cond s op) :
      Reachable cond (step s op)

/-! ## What is promised -/

def waits (ws : List Work) : List Work := ws.filter fun w => !w.isWrite

/-- The waits that have been resolved, in that order. -/
def State.resolvedWaits (s : State) : List Resolved :=
  s.promises.filter fun r => !r.work.isWrite

structure Sound (s : State) : Prop where
  /-- A promise has been set once, or its work is pending. -/
  once : ∀ w ∈ s.accepted, (s.promises.map (·.work)).count w + s.pendingWorks.count w = 1
  transferred : ∀ r ∈ s.promises, r.res = .commSuccess → r.work.isWrite = true →
    s.ib.transferred r.work.id = true
  /-- The `k`-th wait succeeds when `k` notifications have arrived. -/
  notified : ∀ (k : ℕ) (r : Resolved), (waits s.accepted)[k]? = some r.work → r ∈ s.promises →
    r.res = .commSuccess → k + 1 ≤ r.arrived
  order : s.resolvedWaits.map (·.work) <+: waits s.accepted
  /-- The work of a request that is pointed to exists. -/
  owned : ∀ id ∈ s.ib.retained, ⟨id, true⟩ ∈ s.pendingWorks

/-- The results of the `checkNotify` calls of a walk, in their order. -/
def answers (polls : ℕ → Poll) : List Work → Ib → List (CommResult × Bool)
  | [], _ => []
  | w :: ws, ib =>
    if w.isWrite then answers polls ws ib
    else
      match ib.checkNotify (polls w.id) with
      | (res, done, ib') => (res, done) :: answers polls ws ib'

/-- After a wait that has not succeeded the others fare the same. -/
def Follows (a b : CommResult × Bool) : Prop :=
  a.2 = true ∨ b.2 = false ∧ (b.1 = .commSuccess ↔ a.1 = .commSuccess)

/-- An `iput` that fails has queued nothing. `progress` fails only when the IB layer points to no
request, and finds no notification or error for a wait behind one that it has left pending or
failed. No wait is called after one has failed. -/
def Meets (s : State) : Op → Prop
  | .write res queued => failed res = true → queued = false
  | .waitForWrite => ∀ r ∈ s.resolvedWaits, r.res = .commSuccess
  | .transfer _ => True
  | .progress first polls =>
    if failed first.res then (s.ib.poll first).retained = []
    else (answers polls s.pendingWorks (s.ib.poll first)).Pairwise Follows

end TorchComms.Transport
