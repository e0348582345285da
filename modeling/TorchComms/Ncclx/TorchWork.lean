import Mathlib.Data.Int.Notation
import Mathlib.Data.List.Nodup
import Mathlib.Logic.Relation

/-! # Work objects and their status

A work is bracketed by two CUDA events. `checkStatus` queries them, and the clock for the timeout;
a status that is final is never left again.
-/
namespace TorchComms.Ncclx

inductive CudaError
  | cudaSuccess
  | cudaErrorNotReady
  | cudaErrorStreamCaptureUnsupported
  | other (code : ℕ)
  deriving DecidableEq, Repr

inductive WorkStatus
  | NOT_STARTED
  | INPROGRESS
  | COMPLETED
  | TIMEDOUT
  | ERROR
  deriving DecidableEq, Repr

/-- The statuses on which a scan of the queues gives up. -/
def WorkStatus.failed : WorkStatus → Bool
  | .TIMEDOUT | .ERROR => true
  | _ => false

/-- What one call of `checkStatus` can read: the answers to its event queries, and
`steady_clock::now()` in nanoseconds where it looks at the clock. -/
structure EventReading where
  start_status : CudaError
  start_time : ℤ
  end_status : CudaError
  current_time : ℤ

structure TorchWorkNCCLX where
  timeout_ms_ : ℤ
  state_ : WorkStatus
  start_completed_time_ : Option ℤ
  started : state_ = .INPROGRESS → start_completed_time_.isSome

namespace TorchWorkNCCLX

def create (timeout_ms : ℤ) : TorchWorkNCCLX where
  timeout_ms_ := timeout_ms
  state_ := .NOT_STARTED
  start_completed_time_ := none
  started := nofun

/-- The work with a status that it does not leave. -/
def settle (w : TorchWorkNCCLX) (status : WorkStatus) (h : status ≠ .INPROGRESS) : TorchWorkNCCLX :=
  { w with state_ := status, started := fun hs => absurd hs h }

/-- The start event is queried until it has completed once. -/
def queryStart (w : TorchWorkNCCLX) (r : EventReading) : TorchWorkNCCLX :=
  match w.start_completed_time_ with
  | some _ => w
  | none =>
    match r.start_status with
    | .cudaSuccess =>
      { w with
        start_completed_time_ := some r.start_time
        state_ := .INPROGRESS
        started := fun _ => rfl }
    | .cudaErrorNotReady | .cudaErrorStreamCaptureUnsupported => w
    | .other _ => w.settle .ERROR nofun

def queryEnd (w : TorchWorkNCCLX) (h : w.state_ = .INPROGRESS) (r : EventReading) :
    TorchWorkNCCLX :=
  match r.end_status with
  | .cudaSuccess => w.settle .COMPLETED nofun
  | .cudaErrorNotReady =>
    let elapsed_milliseconds :=
      (r.current_time - w.start_completed_time_.get (w.started h)).tdiv 1000000
    if elapsed_milliseconds > w.timeout_ms_ then w.settle .TIMEDOUT nofun else w
  | .cudaErrorStreamCaptureUnsupported => w
  | .other _ => w.settle .ERROR nofun

def checkStatus (w : TorchWorkNCCLX) (r : EventReading) : TorchWorkNCCLX :=
  match w.state_ with
  | .COMPLETED | .ERROR | .TIMEDOUT => w
  | .NOT_STARTED | .INPROGRESS =>
    if h : (w.queryStart r).state_ = .INPROGRESS then (w.queryStart r).queryEnd h r
    else w.queryStart r

end TorchWorkNCCLX
end TorchComms.Ncclx

/-! ## The work queues of the streams

The works of a stream wait in a FIFO queue, and a garbage collection takes the completed works off
the fronts of the queues, one stream after another in the order in which the map is iterated.
-/
namespace TorchComms.Ncclx

/-- A work object, with the number of times its status was checked. -/
structure Tracked where
  work : TorchWorkNCCLX
  checks : ℕ

/-- The events of the works: what the k-th check of a work reads. -/
abbrev Events := ℕ → ℕ → EventReading

namespace Tracked

def check (x : Tracked) (events : ℕ → EventReading) : Tracked :=
  ⟨x.work.checkStatus (events x.checks), x.checks + 1⟩

end Tracked

/-- What a scan of a queue, or of the map of them, leaves behind. -/
structure Scan (α : Type) where
  left : α
  works : ℕ → Tracked
  last_status : WorkStatus

/-- The loop over one queue: completed works are popped, until one is not. -/
def drain (events : Events) : List ℕ → (ℕ → Tracked) → WorkStatus → Scan (List ℕ)
  | [], works, last_status => ⟨[], works, last_status⟩
  | w :: rest, works, _ =>
    let x := (works w).check (events w)
    if x.work.state_ = .COMPLETED then
      drain events rest (Function.update works w x) .COMPLETED
    else ⟨w :: rest, Function.update works w x, x.work.state_⟩

/-- The loop over the queues, which a failed work ends at once. -/
def collect (events : Events) :
    List (ℕ × List ℕ) → (ℕ → Tracked) → WorkStatus → Scan (List (ℕ × List ℕ))
  | [], works, last_status => ⟨[], works, last_status⟩
  | (stream, queue) :: rest, works, last_status =>
    let d := drain events queue works last_status
    if d.last_status.failed then ⟨(stream, d.left) :: rest, d.works, d.last_status⟩
    else
      let c := collect events rest d.works d.last_status
      ⟨if d.left = [] then c.left else (stream, d.left) :: c.left, c.works, c.last_status⟩

/-- `stream_work_queues_[stream].push(w)` -/
def push (stream w : ℕ) : List (ℕ × List ℕ) → List (ℕ × List ℕ)
  | [] => [(stream, [w])]
  | (s, queue) :: rest =>
    if s = stream then (s, queue ++ [w]) :: rest else (s, queue) :: push stream w rest

/-- The works are numbered as they are enqueued. The map is listed in the order in which it is
iterated. -/
structure TorchWorkNCCLXQueue where
  works : ℕ → Tracked
  enqueued : ℕ
  stream_work_queues_ : List (ℕ × List ℕ)

namespace TorchWorkNCCLXQueue

def empty : TorchWorkNCCLXQueue where
  works := fun _ => ⟨.create 0, 0⟩
  enqueued := 0
  stream_work_queues_ := []

def garbageCollect (events : Events) (s : TorchWorkNCCLXQueue) :
    WorkStatus × TorchWorkNCCLXQueue :=
  let c := collect events s.stream_work_queues_ s.works .COMPLETED
  (c.last_status, { s with works := c.works, stream_work_queues_ := c.left })

/-- The statuses on which `finalize` leaves its loop. -/
def decided : WorkStatus → Bool
  | .ERROR | .TIMEDOUT | .COMPLETED => true
  | _ => false

/-- The loop of `finalize`, where it ends within the given number of rounds. -/
def finalizeLoop (events : Events) :
    ℕ → WorkStatus → TorchWorkNCCLXQueue → Option (WorkStatus × TorchWorkNCCLXQueue)
  | 0, _, _ => none
  | rounds + 1, status, s =>
    if s.stream_work_queues_ = [] then some (status, s)
    else
      let r := s.garbageCollect events
      if decided r.1 then some r else finalizeLoop events rounds r.1 r.2

def clear (s : TorchWorkNCCLXQueue) : TorchWorkNCCLXQueue := { s with stream_work_queues_ := [] }

def finalize (events : Events) (rounds : ℕ) (s : TorchWorkNCCLXQueue) :
    Option (WorkStatus × TorchWorkNCCLXQueue) :=
  (s.finalizeLoop events rounds .COMPLETED).map fun r => (r.1, r.2.clear)

/-- A new work joins the queue of its stream. What order the map is iterated in from then on is
not known: an insertion may rehash it. -/
def enqueueWork (timeout_ms : ℤ) (order : List (ℕ × List ℕ)) (s : TorchWorkNCCLXQueue) :
    TorchWorkNCCLXQueue where
  works := Function.update s.works s.enqueued ⟨.create timeout_ms, 0⟩
  enqueued := s.enqueued + 1
  stream_work_queues_ := order

inductive Step (events : Events) : TorchWorkNCCLXQueue → TorchWorkNCCLXQueue → Prop
  | enqueueWork (s : TorchWorkNCCLXQueue) (timeout_ms : ℤ) (stream : ℕ)
      {order : List (ℕ × List ℕ)}
      (h : order.Perm (push stream s.enqueued s.stream_work_queues_)) :
      Step events s (s.enqueueWork timeout_ms order)
  | garbageCollect (s : TorchWorkNCCLXQueue) : Step events s (s.garbageCollect events).2

/-- The states reached from the empty queue by calls of `enqueueWork` and `garbageCollect`. -/
def Reachable (events : Events) : TorchWorkNCCLXQueue → Prop :=
  Relation.ReflTransGen (Step events) empty

/-- The works that wait on the stream, first come first. -/
def queue (s : TorchWorkNCCLXQueue) (stream : ℕ) : List ℕ :=
  (s.stream_work_queues_.lookup stream).getD []

def status (s : TorchWorkNCCLXQueue) (w : ℕ) : WorkStatus := (s.works w).work.state_

end TorchWorkNCCLXQueue
end TorchComms.Ncclx
