import TorchComms.Foundation.Run
import TorchComms.Memory.SlabAllocator
import Mathlib.Data.List.AList

/-! # `memCacheAllocator`: the region cache over the slab allocator

A region is named by its index in `allocatedRegions_`, which stands for the shared pointer to
it. The hash of a key, the pool size, the granularity and every driver answer are inputs.
-/
namespace TorchComms.Memory

open Foundation

inductive BucketType where
  | DEFAULT
  | NVL
  | RDMA
deriving DecidableEq, Repr

def kUnAssignedOwner : String := "kUnAssignedOwner"

structure MemRegion where
  ptr : ℕ
  size : ℕ
  cuHandle : ℕ
  ownerKey : String
  refCnt : ℕ
  bucket : BucketType
deriving DecidableEq, Repr

def MemRegion.range (r : MemRegion) : Range := ⟨r.ptr, r.size⟩

structure MemCacheAllocator where
  poolPtr_ : ℕ
  poolRemainSize_ : ℕ
  poolHandle_ : ℕ
  allocatedRegions_ : List MemRegion
  freeRegionMaps_ : BucketType → Option (ℕ → Option (List ℕ))
  cachedRegionMap_ : AList fun _ : ℕ => ℕ
  intialized_ : Bool
  slabAllocator_ : Option SlabAllocator
  /-- Not a member of the class: the pool size the current session was initialised with. -/
  sessionPoolSize : ℕ

/-- How a call ends: with its out-parameters, with an error code, or by an exception. -/
inductive Reply where
  | success
  | buffer (ptr cuHandle : ℕ)
  | failure (res : CommResult)
  | thrown
deriving DecidableEq, Repr

inductive Fault where
  | nullDeref
deriving DecidableEq, Repr

namespace MemCacheAllocator

/-- The singleton before its first `init`. -/
def fresh : MemCacheAllocator where
  poolPtr_ := 0
  poolRemainSize_ := 0
  poolHandle_ := 0
  allocatedRegions_ := []
  freeRegionMaps_ := fun _ => none
  cachedRegionMap_ := ∅
  intialized_ := false
  slabAllocator_ := none
  sessionPoolSize := 0

/-- `NCCL_MEM_POOL_SIZE` is read when the session starts; a failed pool allocation throws. -/
def init (t : MemCacheAllocator) (poolSize granularity : ℕ) (driver : Option Mapping) :
    Reply × MemCacheAllocator :=
  if t.intialized_ then (.success, t)
  else
    let a := SlabAllocator.create granularity
    let t := { t with slabAllocator_ := some a, freeRegionMaps_ := fun _ => some fun _ => none }
    if 0 < poolSize then
      match a.cuMalloc poolSize driver with
      | none => (.thrown, t)
      | some (out, a') =>
        (.success, { t with
          slabAllocator_ := some a'
          poolPtr_ := out.ptr
          poolHandle_ := out.handle
          poolRemainSize_ := out.newSlabSize.getD poolSize
          intialized_ := true
          sessionPoolSize := poolSize })
    else (.success, { t with intialized_ := true, sessionPoolSize := poolSize })

/-- `cachedRegionMap_[hashKey]`, with the region the stored pointer refers to. -/
def cachedRegion (t : MemCacheAllocator) (hashKey : ℕ) : Option (ℕ × MemRegion) :=
  (t.cachedRegionMap_.lookup hashKey).bind fun id =>
    (t.allocatedRegions_[id]?).map fun r => (id, r)

def countOccupiedRegions (t : MemCacheAllocator) : ℕ :=
  (t.cachedRegionMap_.entries.filterMap fun e =>
    (t.allocatedRegions_[e.2]?).bind fun r =>
      if 0 < r.refCnt then some r.ptr else none).dedup.length

/-- The members `reset` clears; the pool cursor is not among them. -/
def clear (t : MemCacheAllocator) : MemCacheAllocator :=
  { t with
    freeRegionMaps_ := fun _ => none
    allocatedRegions_ := []
    cachedRegionMap_ := ∅
    slabAllocator_ := none
    intialized_ := false }

def reset (t : MemCacheAllocator) : Reply × MemCacheAllocator :=
  if t.intialized_ then
    if 0 < t.countOccupiedRegions then (.failure .commInvalidUsage, t) else (.success, t.clear)
  else (.success, t)

def isRegionUsable (r : MemRegion) (key : String) : Bool :=
  decide (r.refCnt = 0) || decide (r.ownerKey = key)

/-! ### The state changes the calls are made of -/

def setFree (t : MemCacheAllocator) (bucket : BucketType) (size : ℕ) (ids : List ℕ) :
    MemCacheAllocator :=
  let sizes := (t.freeRegionMaps_ bucket).map fun m => Function.update m size (some ids)
  { t with freeRegionMaps_ := Function.update t.freeRegionMaps_ bucket sizes }

def modifyRegion (t : MemCacheAllocator) (id : ℕ) (f : MemRegion → MemRegion) :
    MemCacheAllocator :=
  { t with allocatedRegions_ := t.allocatedRegions_.modify id f }

/-- `ownerKey = key; refCnt++`. -/
def hold (t : MemCacheAllocator) (id : ℕ) (key : String) : MemCacheAllocator :=
  t.modifyRegion id fun r => { r with ownerKey := key, refCnt := r.refCnt + 1 }

def remember (t : MemCacheAllocator) (hashKey id : ℕ) : MemCacheAllocator :=
  { t with cachedRegionMap_ := t.cachedRegionMap_.insert hashKey id }

def addRegion (t : MemCacheAllocator) (r : MemRegion) : MemCacheAllocator :=
  { t with allocatedRegions_ := t.allocatedRegions_ ++ [r] }

/-- The free list of one bucket and size; a missing bucket is a null pointer. -/
def freeRegions (t : MemCacheAllocator) (bucket : BucketType) (size : ℕ) : Option (List ℕ) :=
  (t.freeRegionMaps_ bucket).bind fun m => m size

/-! ### The calls -/

/-- The front of the free list of this size, when sharing is on. -/
def getFreeMemReg (t : MemCacheAllocator) (nBytes : ℕ) (bucket : BucketType) (shared : Bool) :
    Except Fault (Option (ℕ × MemCacheAllocator)) :=
  match t.freeRegionMaps_ bucket with
  | none => .error .nullDeref
  | some m =>
    match m nBytes with
    | some (id :: ids) =>
      if shared then .ok (some (id, t.setFree bucket nBytes ids)) else .ok none
    | _ => .ok none

/-- A region carved from the pool. -/
def poolRegion (t : MemCacheAllocator) (nBytes : ℕ) (bucket : BucketType) : MemRegion :=
  ⟨t.poolPtr_, nBytes, t.poolHandle_, kUnAssignedOwner, 0, bucket⟩

def carvePool (t : MemCacheAllocator) (nBytes : ℕ) : MemCacheAllocator :=
  { t with poolPtr_ := t.poolPtr_ + nBytes, poolRemainSize_ := t.poolRemainSize_ - nBytes }

/-- `none` is the exception that a failed `cuMalloc` throws. -/
def createNewMemReg (t : MemCacheAllocator) (nBytes : ℕ) (bucket : BucketType)
    (driver : Option Mapping) : Except Fault (Option (MemRegion × MemCacheAllocator)) :=
  if t.poolPtr_ ≠ 0 ∧ nBytes ≤ t.poolRemainSize_ then
    let r := t.poolRegion nBytes bucket
    .ok (some (r, (t.carvePool nBytes).addRegion r))
  else
    match t.slabAllocator_ with
    | none => .error .nullDeref
    | some a =>
      match a.cuMalloc nBytes driver with
      | none => .ok none
      | some (out, a') =>
        let r : MemRegion := ⟨out.ptr, nBytes, out.handle, kUnAssignedOwner, 0, bucket⟩
        .ok (some (r, { t with slabAllocator_ := some a' }.addRegion r))

/-- Erase the first occurrence of the region from its free list. -/
def freeMemReg (t : MemCacheAllocator) (id : ℕ) (r : MemRegion) :
    Except Fault MemCacheAllocator :=
  match t.freeRegions r.bucket r.size with
  | none => .error .nullDeref
  | some ids => .ok (t.setFree r.bucket r.size (ids.erase id))

/-- The common end of a successful `getCachedCuMemById`. -/
def handOut (t : MemCacheAllocator) (hashKey : ℕ) (key : String) (id : ℕ) (r : MemRegion) :
    Reply × MemCacheAllocator :=
  (.buffer r.ptr r.cuHandle, (t.hold id key).remember hashKey id)

/-- The cached region of `key` when `isRegionUsable` accepts it. -/
def usableRegion (t : MemCacheAllocator) (hashKey : ℕ) (key : String) : Option (ℕ × MemRegion) :=
  (t.cachedRegion hashKey).filter fun c => isRegionUsable c.2 key

def getCachedCuMemById (genHash : String → ℕ) (t : MemCacheAllocator) (key : String) (nBytes : ℕ)
    (bucket : BucketType) (shared : Bool) (driver : Option Mapping) :
    Except Fault (Reply × MemCacheAllocator) :=
  let alignedSize16 := roundUp nBytes kMinAlignSize
  let hashKey := genHash key
  match t.usableRegion hashKey key with
  | some (id, r) =>
    if r.refCnt = 0 then
      match t.freeMemReg id r with
      | .error f => .error f
      | .ok t₁ => .ok (t₁.handOut hashKey key id r)
    else .ok (t.handOut hashKey key id r)
  | none =>
    match t.getFreeMemReg alignedSize16 bucket shared with
    | .error f => .error f
    | .ok (some (id, t₁)) =>
      match t₁.allocatedRegions_[id]? with
      | none => .error .nullDeref
      | some r =>
        if r.ptr = 0 then .ok (.failure .commInvalidArgument, t₁)
        else .ok (t₁.handOut hashKey key id r)
    | .ok none =>
      match t.createNewMemReg nBytes bucket driver with
      | .error f => .error f
      | .ok none => .ok (.thrown, t)
      | .ok (some (r, t₁)) =>
        if r.ptr = 0 then .ok (.failure .commInvalidArgument, t₁)
        else .ok (t₁.handOut hashKey key t.allocatedRegions_.length r)

def reserve (genHash : String → ℕ) (t : MemCacheAllocator) (key : String) :
    Except Fault (Reply × MemCacheAllocator) :=
  match t.cachedRegion (genHash key) with
  | none => .ok (.failure .commInvalidArgument, t)
  | some (id, r) =>
    if !isRegionUsable r key then .ok (.failure .commInProgress, t)
    else if r.refCnt = 0 then
      match t.freeMemReg id r with
      | .error f => .error f
      | .ok t₁ => .ok (.success, t₁.hold id key)
    else .ok (.success, t.hold id key)

/-- `refCnt--`, and the return of the region to its free list at zero. -/
def unhold (t : MemCacheAllocator) (id : ℕ) (r : MemRegion) : Except Fault MemCacheAllocator :=
  if r.refCnt = 1 then
    match t.freeRegionMaps_ r.bucket with
    | none => .error .nullDeref
    | some m =>
      .ok ((t.modifyRegion id fun r => { r with ownerKey := kUnAssignedOwner, refCnt := 0 }).setFree
        r.bucket r.size ((m r.size).getD [] ++ [id]))
  else .ok (t.modifyRegion id fun r => { r with refCnt := r.refCnt - 1 })

/-- The keys are released one by one; the first one refused ends the call. -/
def release (genHash : String → ℕ) :
    MemCacheAllocator → List String → Except Fault (Reply × MemCacheAllocator)
  | t, [] => .ok (.success, t)
  | t, key :: keys =>
    match t.cachedRegion (genHash key) with
    | none => .ok (.failure .commInvalidUsage, t)
    | some (id, r) =>
      if r.refCnt = 0 then .ok (.failure .commInvalidUsage, t)
      else
        match t.unhold id r with
        | .error f => .error f
        | .ok t₁ => release genHash t₁ keys

inductive Op where
  | init (poolSize granularity : ℕ) (driver : Option Mapping)
  | getCachedCuMemById (key : String) (nBytes : ℕ) (bucket : BucketType) (shared : Bool)
      (driver : Option Mapping)
  | reserve (key : String)
  | release (keys : List String)
  | reset
deriving DecidableEq, Repr

def step (genHash : String → ℕ) (t : MemCacheAllocator) :
    Op → Except Fault (Reply × MemCacheAllocator)
  | .init poolSize granularity driver => .ok (t.init poolSize granularity driver)
  | .getCachedCuMemById key nBytes bucket shared driver =>
    t.getCachedCuMemById genHash key nBytes bucket shared driver
  | .reserve key => t.reserve genHash key
  | .release keys => t.release genHash keys
  | .reset => .ok t.reset

/-- The step without its reply. -/
def next (genHash : String → ℕ) (t : MemCacheAllocator) (op : Op) :
    Except Fault MemCacheAllocator :=
  (t.step genHash op).map Prod.snd

end MemCacheAllocator
end TorchComms.Memory
