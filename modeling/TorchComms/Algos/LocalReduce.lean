import TorchComms.Foundation.OwnedCells
import TorchComms.Foundation.MachineWords

/-! # Reducing on the device

`localReduce` and its two ways to give the elements to the threads. A pointer is an address, and
arrays at different addresses do not overlap. Indices are 32 bits wide in most places.
-/
namespace TorchComms.Algos.LocalReduce
open Foundation

def u32 (x : ℕ) : ℕ := x % 2 ^ 32

def kMax_uint32_t : ℕ := 2 ^ 32 - 1

def kWarpSize : ℕ := 32

def CTRAN_MAX_NVL_PEERS : ℕ := 32

def roundDown (a b : ℕ) : ℕ := a / b * b

/-! ## The reduction -/

inductive RedOp
  | commSum
  | commProd
  | commMax
  | commMin
  | commAvg
  deriving DecidableEq

section Value

variable {α : Type*} [Add α] [Mul α] [LT α] [DecidableLT α]

def reduceNcclOp1 : RedOp → α → α → α
  | .commSum, a, b | .commAvg, a, b => a + b
  | .commProd, a, b => a * b
  | .commMax, a, b => if b < a then a else b
  | .commMin, a, b => if b < a then b else a

/-- The reduction of the values at one index, in the order of the sources. `divide` is the division
by an `int`. -/
def reduced [Inhabited α] (redOp : RedOp) (divide : α → ℤ → α) (nRanks : ℤ) : List α → α
  | [] => default
  | s :: rest =>
    let s := rest.foldl (reduceNcclOp1 redOp) s
    if redOp = .commAvg then divide s nRanks else s

end Value

/-! ## The threads and their loops -/

/-- What all threads share. -/
structure Launch where
  blockDim : ℕ
  numWorkers : ℕ
  count : ℕ
  sizeofT : ℕ
  warps : kWarpSize ∣ blockDim
  blockDim_pos : 0 < blockDim
  numWorkers_pos : 0 < numWorkers
  sizeofT_dvd : sizeofT ∣ 16

structure Thread (L : Launch) where
  workerId : ℕ
  threadIdx : ℕ
  workerId_lt : workerId < L.numWorkers
  threadIdx_lt : threadIdx < L.blockDim
  deriving DecidableEq

variable {L : Launch}

def Thread.linearThreadId (t : Thread L) : ℕ := u32 (L.blockDim * t.workerId + t.threadIdx)

def Thread.warpId (t : Thread L) : ℕ := t.linearThreadId / kWarpSize

def Thread.laneId (t : Thread L) : ℕ := t.threadIdx % kWarpSize

def Launch.numWarps (L : Launch) : ℕ := u32 (L.numWorkers * L.blockDim) / kWarpSize

def Launch.reduceStride (L : Launch) : ℕ := u32 (L.numWorkers * L.blockDim)

/-- The loops of a thread as it enters them: the unrolled one, with the width of its counter and how
far the stores of a turn are from where the destinations start, and the epilogue. -/
structure Loops where
  modulus : ℕ
  limitCount : ℕ
  start : ℕ
  stride : ℕ
  unroll : ℕ
  words : ℕ
  target : ℕ → ℕ
  epilogue : ℕ

/-- The destinations are pointers that advance by themselves. -/
def localReduceVectorized (L : Launch) (t : Thread L) : Loops :=
  let kWordsPerVectorLoad := 16 / L.sizeofT
  let kUnroll := 4
  let kWordsPerWarp := kWarpSize * kWordsPerVectorLoad * kUnroll
  let limitCount := roundDown (u32 L.count) kWordsPerWarp
  let i := u32 (t.warpId * kWordsPerWarp + t.laneId * kWordsPerVectorLoad)
  { modulus := 2 ^ 32
    limitCount := limitCount
    start := i
    stride := u32 (L.numWarps * kWordsPerWarp)
    unroll := kUnroll
    words := kWordsPerVectorLoad
    target := fun k => i + k * u32 (L.numWarps * kWordsPerWarp)
    epilogue := u32 (limitCount + t.linearThreadId) }

/-- The unrolled loop counts in `size_t`, from a start and by a stride of 32 bits. -/
def localReduceFallback (L : Launch) (t : Thread L) : Loops :=
  let kUnroll := 8
  let kWordsPerWarp := kWarpSize * kUnroll
  let limitCount := roundDown L.count kWordsPerWarp
  let i := u32 (t.warpId * kWordsPerWarp + t.laneId)
  { modulus := 2 ^ 64
    limitCount := limitCount
    start := i
    stride := u32 (L.numWarps * kWordsPerWarp)
    unroll := kUnroll
    words := 1
    target := fun k => counter (2 ^ 64) (u32 (L.numWarps * kWordsPerWarp)) i k
    epilogue := u32 (limitCount + t.linearThreadId) }

inductive Path
  | vectorized
  | fallback
  deriving DecidableEq

def Path.loops : Path → (L : Launch) → Thread L → Loops
  | .vectorized => localReduceVectorized
  | .fallback => localReduceFallback

/-- A word of a row in a turn of the unrolled loop, or a turn of the epilogue. -/
inductive Slot
  | main (k j q : ℕ)
  | epilogue (k : ℕ)
  deriving DecidableEq

/-- An element that a thread reduces. -/
structure Visit (L : Launch) where
  thread : Thread L
  slot : Slot
  deriving DecidableEq

namespace Loops

variable (l : Loops)

/-- Whether the thread comes to it. -/
def Runs (L : Launch) : Slot → Prop
  | .main k j q => Executes l.modulus l.limitCount l.stride l.start k ∧ j < l.unroll ∧ q < l.words
  | .epilogue k => Executes (2 ^ 32) L.count L.reduceStride l.epilogue k

/-- The element that is loaded. -/
def source (L : Launch) : Slot → ℕ
  | .main k j q =>
    (counter l.modulus l.stride l.start k + j * kWarpSize * l.words) % l.modulus + q
  | .epilogue k => counter (2 ^ 32) L.reduceStride l.epilogue k

/-- The element that is stored. -/
def store (L : Launch) : Slot → ℕ
  | .main k j q => l.target k + j * kWarpSize * l.words + q
  | .epilogue k => counter (2 ^ 32) L.reduceStride l.epilogue k

/-- Both loops end. -/
def Ends (L : Launch) : Prop :=
  Foundation.Ends l.modulus l.limitCount l.stride l.start ∧
    Foundation.Ends (2 ^ 32) L.count L.reduceStride l.epilogue

end Loops

namespace Visit

def Runs (p : Path) (v : Visit L) : Prop := (p.loops L v.thread).Runs L v.slot

def source (p : Path) (v : Visit L) : ℕ := (p.loops L v.thread).source L v.slot

def store (p : Path) (v : Visit L) : ℕ := (p.loops L v.thread).store L v.slot

end Visit

/-- The arrays, by their addresses. -/
structure Buffers where
  srcs : List ℕ
  dsts : List ℕ
  srcs_pos : 0 < srcs.length
  srcs_le : srcs.length ≤ CTRAN_MAX_NVL_PEERS
  dsts_pos : 0 < dsts.length

def isAlignedPointer (addr : ℕ) : Bool := addr % 16 = 0

/-- The way that is taken. -/
def localReduce (B : Buffers) (L : Launch) : Path :=
  let isAligned := B.srcs.all isAlignedPointer && B.dsts.all isAlignedPointer
  let isCountInBounds := decide (L.count ≤ kMax_uint32_t)
  if isAligned && isCountInBounds then
    if B.srcs.length = 8 ∧ B.dsts.length = 1 then .vectorized
    else if B.srcs.length = 4 ∧ B.dsts.length = 1 then .vectorized
    else if B.srcs.length = 2 ∧ B.dsts.length = 1 then .vectorized
    else if B.srcs.length = 8 ∧ B.dsts.length = 2 then .vectorized
    else if B.srcs.length = 2 ∧ B.dsts.length = 2 then .vectorized
    else if B.srcs.length = 1 ∧ B.dsts.length = 8 then .vectorized
    else if B.srcs.length = 8 ∧ B.dsts.length = 8 then .vectorized
    else if B.srcs.length = 1 ∧ B.dsts.length = 1 then .vectorized
    else .fallback
  else .fallback

/-- The loads and stores of all threads, in some order. -/
def tasks {α : Type*} (value : List α → α) (p : Path) (L : Launch) (B : Buffers) :
    Tasks (Visit L) ℕ α where
  numSrcs := B.srcs.length
  numDsts := B.dsts.length
  srcs := fun j => B.srcs.getD j 0
  dsts := fun d => B.dsts.getD d 0
  source := Visit.source p
  target := Visit.store p
  value := value

end TorchComms.Algos.LocalReduce
