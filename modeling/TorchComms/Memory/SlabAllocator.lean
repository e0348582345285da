import TorchComms.CommSpecs
import TorchComms.Foundation.Range

/-! # `SlabAllocator`: slabs from the driver, carved at a moving tail

The driver's answer to one `commCuMemAlloc` is an input of the model: the mapping it made,
or nothing when it failed. A slab records the size that was asked for beside its address.
-/
namespace TorchComms.Memory

open Foundation

/-- The address and handle `commCuMemAlloc` writes. -/
structure Mapping where
  ptr : ℕ
  handle : ℕ
deriving DecidableEq, Repr

def kMinAlignSize : ℕ := 16

/-- `divUp(a, b) * b` in `size_t`. -/
def roundUp (a b : ℕ) : ℕ := ((a + b - 1) % 2 ^ 64 / b * b) % 2 ^ 64

structure SlabAllocator where
  slabPtrs_ : List Range
  freeSize_ : ℕ
  startPtr_ : ℕ
  slabHandle_ : ℕ
  granularity_ : ℕ
deriving DecidableEq, Repr

/-- What a successful `allocateMem` writes through its out-parameters. -/
structure Allocation where
  ptr : ℕ
  handle : ℕ
  newSlabSize : Option ℕ
deriving DecidableEq, Repr

namespace SlabAllocator

def create (granularity : ℕ) : SlabAllocator := ⟨[], 0, 0, 0, granularity⟩

/-- The size of the slab a miss asks the driver for. -/
def slabSize (a : SlabAllocator) (numBytes : ℕ) : ℕ := roundUp numBytes a.granularity_

/-- `none` is the error code of a failed driver call, which leaves the allocator as it was. -/
def allocateMem (a : SlabAllocator) (numBytes : ℕ) (driver : Option Mapping) :
    Option (Allocation × SlabAllocator) :=
  if a.freeSize_ < numBytes then
    match driver with
    | none => none
    | some m =>
      let size := a.slabSize numBytes
      some (⟨m.ptr, m.handle, some size⟩,
        { a with
          slabPtrs_ := a.slabPtrs_ ++ [⟨m.ptr, size⟩]
          freeSize_ := (size + 2 ^ 64 - numBytes) % 2 ^ 64
          startPtr_ := m.ptr + numBytes
          slabHandle_ := m.handle })
  else
    some (⟨a.startPtr_, a.slabHandle_, none⟩,
      { a with startPtr_ := a.startPtr_ + numBytes, freeSize_ := a.freeSize_ - numBytes })

def cuMalloc (a : SlabAllocator) (numBytes : ℕ) (driver : Option Mapping) :
    Option (Allocation × SlabAllocator) :=
  a.allocateMem (roundUp numBytes kMinAlignSize) driver

/-- The unused tail of the last slab. -/
def tail (a : SlabAllocator) : Range := ⟨a.startPtr_, a.freeSize_⟩

/-- Neither rounding of a request of `nBytes` wraps around. -/
def Fits (a : SlabAllocator) (nBytes : ℕ) : Prop :=
  nBytes ≤ roundUp nBytes kMinAlignSize ∧
    roundUp nBytes kMinAlignSize ≤ a.slabSize (roundUp nBytes kMinAlignSize)

instance (a : SlabAllocator) (nBytes : ℕ) : Decidable (a.Fits nBytes) :=
  inferInstanceAs (Decidable (_ ∧ _))

theorem roundUp_lt (a b : ℕ) : roundUp a b < 2 ^ 64 := Nat.mod_lt _ (by decide)

/-- A driver answer for a new slab: non-null, inside the address space, and apart from every
slab that is still mapped. -/
def Fresh (a : SlabAllocator) (numBytes : ℕ) (m : Mapping) : Prop :=
  0 < m.ptr ∧ m.ptr + a.slabSize numBytes ≤ 2 ^ 64 ∧
    ∀ s ∈ a.slabPtrs_, s.Apart ⟨m.ptr, a.slabSize numBytes⟩

instance (a : SlabAllocator) (numBytes : ℕ) (m : Mapping) : Decidable (a.Fresh numBytes m) :=
  inferInstanceAs (Decidable (_ ∧ _ ∧ _))

/-- The tail is in some slab, or there is no slab yet. -/
def TailInSlab (a : SlabAllocator) : Prop :=
  (a.startPtr_ = 0 ∧ a.freeSize_ = 0) ∨
    0 < a.startPtr_ ∧ ∃ s ∈ a.slabPtrs_, s.Covers a.tail

theorem tailInSlab_create (granularity : ℕ) : (create granularity).TailInSlab :=
  .inl ⟨rfl, rfl⟩

/-- What `cuMalloc` does to the slabs: it carves the tail it has, or the front of a new slab. -/
theorem cuMalloc_cases {a a' : SlabAllocator} {nBytes : ℕ} {driver : Option Mapping}
    {out : Allocation} (h : a.cuMalloc nBytes driver = some (out, a')) :
    (roundUp nBytes kMinAlignSize ≤ a.freeSize_ ∧ out.ptr = a.startPtr_ ∧
      out.newSlabSize = none ∧ a'.slabPtrs_ = a.slabPtrs_ ∧
      a'.tail = a.tail.rest (roundUp nBytes kMinAlignSize)) ∨
    ∃ m, driver = some m ∧ a.freeSize_ < roundUp nBytes kMinAlignSize ∧ out.ptr = m.ptr ∧
      out.newSlabSize = some (a.slabSize (roundUp nBytes kMinAlignSize)) ∧
      a'.slabPtrs_ =
        a.slabPtrs_ ++ [⟨m.ptr, a.slabSize (roundUp nBytes kMinAlignSize)⟩] ∧
      (a.Fits nBytes → a'.tail =
        Range.rest ⟨m.ptr, a.slabSize (roundUp nBytes kMinAlignSize)⟩
          (roundUp nBytes kMinAlignSize)) := by
  unfold cuMalloc allocateMem at h
  split_ifs at h with hfree
  · cases driver with
    | none => simp at h
    | some m =>
      simp only [Option.some.injEq, Prod.mk.injEq] at h
      obtain ⟨rfl, rfl⟩ := h
      refine .inr ⟨m, rfl, hfree, rfl, rfl, rfl, ?_⟩
      rintro ⟨_, hfit⟩
      have hlt := roundUp_lt (roundUp nBytes kMinAlignSize) a.granularity_
      simp only [slabSize] at hfit hlt
      simp only [tail, Range.rest, slabSize, Range.mk.injEq, true_and]
      omega
  · simp only [Option.some.injEq, Prod.mk.injEq] at h
    obtain ⟨rfl, rfl⟩ := h
    exact .inl ⟨not_lt.mp hfree, rfl, rfl, rfl, rfl⟩

end SlabAllocator
end TorchComms.Memory
