import Mathlib.Data.Finset.Image
import Mathlib.Data.Nat.Bitwise

/-! # Chunks from the forward groups to a receiving rank

The forward groups of a rank share the chunks of a temporary buffer on the receiving rank. A counter
hands out step numbers, and a step uses the chunk of its number modulo the number of chunks. Worker 0
of a group takes a number and gives it to the other workers of the group. Every worker waits until
its flag of the chunk is unset, copies its part and sets the flag. The receiver waits for the flags
of all workers, copies the chunk out and unsets them.
-/
namespace TorchComms.AllToAllvDedup
open Function

/-- The parts of a chunk: the header, the block ids, and the blocks that one worker copies. -/
inductive Cell
  | hdr
  | blockIds
  | blocks (workerId : ℕ)
  deriving DecidableEq, Repr

/-- What a worker writes in a chunk, in this order. All workers write the block ids. -/
def cells (workerId : ℕ) : List Cell :=
  if workerId = 0 then [.blockIds, .blocks 0, .hdr] else [.blockIds, .blocks workerId]

/-- The forward groups of a rank, and how many chunks each of them has for the receiving rank. -/
structure FwdConfig where
  numGroups : ℕ
  numWorkers : ℕ
  tmpNumChunks : ℕ
  numFwds : ℕ → ℕ
  numGroups_pos : 1 ≤ numGroups
  numWorkers_pos : 1 ≤ numWorkers
  tmpNumChunks_pow : ∃ k, tmpNumChunks = 2 ^ k

namespace FwdConfig

variable (c : FwdConfig)

def getTmpChunkIdx (step : ℕ) : ℕ := step &&& (c.tmpNumChunks - 1)

/-- What the receiver reads of a chunk. -/
def allCells : Finset Cell := {.hdr, .blockIds} ∪ (Finset.range c.numWorkers).image .blocks

end FwdConfig

inductive Status
  | kUnset
  | kPosted
  deriving DecidableEq, Repr

/-- Where a worker is: before `getNextStep`, in its loop over the other workers, in `waitReady`, and
between `waitReady` and `post` with what it has still to write. -/
inductive Worker
  | next
  | hand (step workerId : ℕ)
  | waitReady (step : ℕ)
  | copy (step : ℕ) (left : List Cell)
  deriving DecidableEq, Repr

/-- Where the receiver is, with the flags or the parts of the chunk that are left. -/
inductive Receiver (β : Type)
  | waitPost (left : Finset ℕ)
  | copy (left : Finset Cell) (got : Cell → Option β)
  | complete (left : Finset ℕ)

/-- The sync objects, the chunks, and all workers as pairs of a group and a worker of it. `takenBy`
remembers for which chunk of which group a step number was taken, and `posts` counts the chunks that
a worker has posted. -/
structure FwdState (β : Type) where
  remRecvSteps : ℕ
  takenBy : ℕ → ℕ × ℕ
  remRecvStepsInGroup : ℕ × ℕ → Option ℕ
  worker : ℕ × ℕ → Worker
  posts : ℕ × ℕ → ℕ
  flags : ℕ × ℕ → Status
  tmpRecvBuff : ℕ × Cell → β
  receiver : Receiver β
  recvStep : ℕ
  consumed : List (Cell → Option β)

inductive Act
  | atomicAdd (g : ℕ)
  | atomicCAS (g : ℕ)
  | leaveLoop (g : ℕ)
  | atomicExch (g w : ℕ)
  | waitReady (g w : ℕ)
  | write (g w : ℕ)
  | post (g w : ℕ)
  | loadFlag (w : ℕ)
  | allPosted
  | read (e : Cell)
  | allRead
  | storeFlag (w : ℕ)
  | allUnset
  deriving DecidableEq, Repr

namespace FwdState

variable {β : Type}

def initial (c : FwdConfig) (tmpRecvBuff : ℕ × Cell → β) : FwdState β where
  remRecvSteps := 0
  takenBy := fun _ => (0, 0)
  remRecvStepsInGroup := fun _ => none
  worker := fun _ => .next
  posts := fun _ => 0
  flags := fun _ => .kUnset
  tmpRecvBuff := tmpRecvBuff
  receiver := .waitPost (Finset.range c.numWorkers)
  recvStep := 0
  consumed := []

def setWorker (s : FwdState β) (g w : ℕ) (x : Worker) : FwdState β :=
  { s with worker := update s.worker (g, w) x }

/-- One atomic operation of a worker or of the receiver. `chunk g k` is the content of the k-th chunk
of group `g`. -/
inductive Step (c : FwdConfig) (chunk : ℕ → ℕ → Cell → β) : FwdState β → Act → FwdState β → Prop
  | atomicAdd {s : FwdState β} {g : ℕ} (hg : g < c.numGroups) (h : s.worker (g, 0) = .next)
      (hfwd : s.posts (g, 0) < c.numFwds g) :
      Step c chunk s (.atomicAdd g) { s.setWorker g 0 (.hand s.remRecvSteps 1) with
        remRecvSteps := s.remRecvSteps + 1
        takenBy := update s.takenBy s.remRecvSteps (g, s.posts (g, 0)) }
  | atomicCAS {s : FwdState β} {g step w : ℕ} (hg : g < c.numGroups)
      (h : s.worker (g, 0) = .hand step w) (hw : w < c.numWorkers)
      (hunset : s.remRecvStepsInGroup (g, w) = none) :
      Step c chunk s (.atomicCAS g) { s.setWorker g 0 (.hand step (w + 1)) with
        remRecvStepsInGroup := update s.remRecvStepsInGroup (g, w) (some step) }
  | leaveLoop {s : FwdState β} {g step w : ℕ} (hg : g < c.numGroups)
      (h : s.worker (g, 0) = .hand step w) (hw : c.numWorkers ≤ w) :
      Step c chunk s (.leaveLoop g) (s.setWorker g 0 (.waitReady step))
  | atomicExch {s : FwdState β} {g w step : ℕ} (hg : g < c.numGroups) (hpos : 0 < w)
      (hw : w < c.numWorkers) (h : s.worker (g, w) = .next) (hfwd : s.posts (g, w) < c.numFwds g)
      (hset : s.remRecvStepsInGroup (g, w) = some step) :
      Step c chunk s (.atomicExch g w) { s.setWorker g w (.waitReady step) with
        remRecvStepsInGroup := update s.remRecvStepsInGroup (g, w) none }
  | waitReady {s : FwdState β} {g w step : ℕ} (hg : g < c.numGroups) (hw : w < c.numWorkers)
      (h : s.worker (g, w) = .waitReady step)
      (hflag : s.flags (c.getTmpChunkIdx step, w) = .kUnset) :
      Step c chunk s (.waitReady g w) (s.setWorker g w (.copy step (cells w)))
  | write {s : FwdState β} {g w step : ℕ} {e : Cell} {left : List Cell} (hg : g < c.numGroups)
      (hw : w < c.numWorkers) (h : s.worker (g, w) = .copy step (e :: left)) :
      Step c chunk s (.write g w) { s.setWorker g w (.copy step left) with
        tmpRecvBuff :=
          update s.tmpRecvBuff (c.getTmpChunkIdx step, e) (chunk g (s.posts (g, w)) e) }
  | post {s : FwdState β} {g w step : ℕ} (hg : g < c.numGroups) (hw : w < c.numWorkers)
      (h : s.worker (g, w) = .copy step []) :
      Step c chunk s (.post g w) { s.setWorker g w .next with
        posts := update s.posts (g, w) (s.posts (g, w) + 1)
        flags := update s.flags (c.getTmpChunkIdx step, w) .kPosted }
  | loadFlag {s : FwdState β} {w : ℕ} {left : Finset ℕ} (h : s.receiver = .waitPost left)
      (hw : w ∈ left) (hflag : s.flags (c.getTmpChunkIdx s.recvStep, w) = .kPosted) :
      Step c chunk s (.loadFlag w) { s with receiver := .waitPost (left.erase w) }
  | allPosted {s : FwdState β} (h : s.receiver = .waitPost ∅) :
      Step c chunk s .allPosted { s with receiver := .copy c.allCells fun _ => none }
  | read {s : FwdState β} {e : Cell} {left : Finset Cell} {got : Cell → Option β}
      (h : s.receiver = .copy left got) (he : e ∈ left) :
      Step c chunk s (.read e) { s with
        receiver := .copy (left.erase e)
          (update got e (some (s.tmpRecvBuff (c.getTmpChunkIdx s.recvStep, e)))) }
  | allRead {s : FwdState β} {got : Cell → Option β} (h : s.receiver = .copy ∅ got) :
      Step c chunk s .allRead { s with
        receiver := .complete (Finset.range c.numWorkers)
        consumed := s.consumed ++ [got] }
  | storeFlag {s : FwdState β} {w : ℕ} {left : Finset ℕ} (h : s.receiver = .complete left)
      (hw : w ∈ left) :
      Step c chunk s (.storeFlag w) { s with
        receiver := .complete (left.erase w)
        flags := update s.flags (c.getTmpChunkIdx s.recvStep, w) .kUnset }
  | allUnset {s : FwdState β} (h : s.receiver = .complete ∅) :
      Step c chunk s .allUnset { s with
        receiver := .waitPost (Finset.range c.numWorkers)
        recvStep := s.recvStep + 1 }

/-- The worker of this number in the group that has the step has posted it. -/
def Posted (s : FwdState β) (step w : ℕ) : Prop :=
  (s.takenBy step).2 < s.posts ((s.takenBy step).1, w)

/-- Between `waitReady` and `post` of a step. -/
def InCopy (s : FwdState β) (g w step : ℕ) : Prop := ∃ left, s.worker (g, w) = .copy step left

/-- The state has its chunks in order: steps that share a chunk are not written together, a chunk is
not written before the receiver has consumed what was posted in it last, and what the receiver has
consumed are the steps, whole and in order. -/
structure InOrder (c : FwdConfig) (chunk : ℕ → ℕ → Cell → β) (s : FwdState β) : Prop where
  exclusive : ∀ g < c.numGroups, ∀ g' < c.numGroups, ∀ w < c.numWorkers, ∀ w' < c.numWorkers,
    ∀ i j, s.InCopy g w i → s.InCopy g' w' j → c.getTmpChunkIdx i = c.getTmpChunkIdx j → i = j
  unread : ∀ g < c.numGroups, ∀ w < c.numWorkers, ∀ i, s.InCopy g w i →
    ∀ j < s.remRecvSteps, c.getTmpChunkIdx j = c.getTmpChunkIdx i →
      (∀ v < c.numWorkers, s.Posted j v) → j < s.consumed.length
  steps : s.consumed.length ≤ s.remRecvSteps ∧ ∀ i got, s.consumed[i]? = some got →
    ∀ e ∈ c.allCells, got e = some (chunk (s.takenBy i).1 (s.takenBy i).2 e)
  once : ∀ i < s.remRecvSteps, ∀ j < s.remRecvSteps, s.takenBy i = s.takenBy j → i = j
  all : (∀ a t, ¬ Step c chunk s a t) →
    ∀ g < c.numGroups, ∀ k < c.numFwds g, ∃ i < s.consumed.length, s.takenBy i = (g, k)

/-- A worker that is through `waitReady` does not lap the group that had the chunk before: the worker
of its number there has posted. -/
def NotLapping (c : FwdConfig) (s : FwdState β) : Act → Prop
  | .waitReady g w => ∀ step, s.worker (g, w) = .waitReady step → c.tmpNumChunks ≤ step →
      s.Posted (step - c.tmpNumChunks) w
  | _ => True

/-- The states that some interleaving leads to. -/
def Reachable (c : FwdConfig) (chunk : ℕ → ℕ → Cell → β) (tmpRecvBuff : ℕ × Cell → β) :
    FwdState β → Prop :=
  Relation.ReflTransGen (fun s t => ∃ a, Step c chunk s a t) (initial c tmpRecvBuff)

/-- The states that interleavings lead to in which no worker laps. -/
def ReachableInTurn (c : FwdConfig) (chunk : ℕ → ℕ → Cell → β) (tmpRecvBuff : ℕ × Cell → β) :
    FwdState β → Prop :=
  Relation.ReflTransGen (fun s t => ∃ a, NotLapping c s a ∧ Step c chunk s a t)
    (initial c tmpRecvBuff)

end FwdState
end TorchComms.AllToAllvDedup
