import TorchComms.AvlTree.Tree
import TorchComms.Foundation.InvertedIndex

/-! # `CtranMapperRegCache`: cached segments and registered elements

Pointers are addresses, and 0 is null. Objects live in tables by their address, an allocation
returns any address at which nothing lives, and the caller of `freeSegment` owns the elements it
gets until it destroys them. The driver and the transport backends answer as the call finds them.
-/
namespace TorchComms.Mapper

open Foundation AvlTree

/-- What `FB_COMMCHECK` lets pass. -/
def passes (c : CommResult) : Bool := c = .commSuccess || c = .commInProgress

inductive DevMemType where
  | kCudaMalloc
  | kManaged
  | kHostPinned
  | kHostUnregistered
  | kCumem
deriving DecidableEq, Repr

structure CtranMapperSegmentRange where
  buf : ℕ
  len : ℕ
  type : DevMemType
deriving DecidableEq, Repr

/-- The driver's answers; the range it gives for an address holds the address. -/
structure Driver where
  getDevMemType : ℕ → ℤ → Except CommResult DevMemType
  cuMemGetAddressRange : ℕ → Option (ℕ × ℕ)
  holds : ∀ p base range, cuMemGetAddressRange p = some (base, range) →
    base ≤ p ∧ p < base + range ∧ base + range < 2 ^ 64

/-- The ranges of a cuMem buffer from the offset on. Every round moves the offset on, so as many
rounds as the buffer has bytes are enough. -/
def pinRanges (drv : Driver) (ptr len : ℕ) : ℕ → ℕ → Except CommResult (List CtranMapperSegmentRange)
  | 0, _ => .ok []
  | fuel + 1, cur_offset =>
    if cur_offset < len then
      match drv.cuMemGetAddressRange (ptr + cur_offset) with
      | none => .error .commUnhandledCudaError
      | some (curPbase, curRange) =>
        (pinRanges drv ptr len fuel (curPbase + curRange - ptr)).map
          (⟨curPbase, curRange, .kCumem⟩ :: ·)
    else .ok []

def pinRange (drv : Driver) (ptr : ℕ) (cudaDev : ℤ) (len : ℕ) :
    Except CommResult (List CtranMapperSegmentRange) :=
  match drv.getDevMemType ptr cudaDev with
  | .error c => .error c
  | .ok memType =>
    if memType ≠ .kCumem then .ok [⟨ptr, len, memType⟩]
    else
      match drv.cuMemGetAddressRange ptr with
      | none => .error .commUnhandledCudaError
      | some (curPbase, curRange) =>
        (pinRanges drv ptr len len (curPbase + curRange - ptr)).map
          (⟨curPbase, curRange, memType⟩ :: ·)

structure CtranMapperSegment where
  range : CtranMapperSegmentRange
  cudaDev : ℤ
  ncclManaged : Bool
  refCount : ℤ := 1
  avlHdl_ : ℕ := 0
deriving DecidableEq, Repr

inductive CtranMapperRegElemState where
  | REGISTERED
  | DEREGISTERED
deriving DecidableEq, Repr

structure CtranMapperRegElem where
  buf : ℕ
  len : ℕ
  ibRegElem : Option ℕ := none
  nvlRegElem : Option ℕ := none
  tcpRegElem : Option ℕ := none
  state : CtranMapperRegElemState := .REGISTERED
  cudaDev_ : ℤ
  isDynamic_ : Bool := false
  lookupHit_ : ℕ := 0
  segments_ : List ℕ := []
  type_ : DevMemType
deriving DecidableEq, Repr

/-- Ways in which a call does not return. -/
inductive Fault where
  | abort
  | outOfRange
  | danglingSegment
  | avl (f : AvlTree.Fault)
deriving DecidableEq

/-! ### Registration with the backends -/

inductive RegMem where
  | returned (c : CommResult) (hdl : ℕ)
  | badAlloc
deriving DecidableEq, Repr

/-- The configuration and the backends' answers to one registration. -/
structure Backends where
  tcpDmEnabled : Bool
  ibEnabled : Bool
  nvlRegMem : RegMem
  ibRegMem : RegMem
  tcpRegMem : CommResult × ℕ
deriving DecidableEq, Repr

/-- A `regMem` call whose `bad_alloc` means that the backend is not there. -/
def tryRegMem (answer : RegMem) (hdl : Option ℕ) : Except CommResult (Option ℕ) :=
  match answer with
  | .badAlloc => .ok hdl
  | .returned c new => if passes c then .ok (some new) else .error c

/-- `doRegister` of an element that no backend has yet. -/
def doRegister (b : Backends) (e : CtranMapperRegElem) :
    Except Fault (Except CommResult CtranMapperRegElem) :=
  let nvl := e.type_ ≠ .kHostUnregistered ∧ b.tcpDmEnabled = false
  if nvl ∧ e.nvlRegElem ≠ none then .error .abort
  else
    match (if nvl then tryRegMem b.nvlRegMem e.nvlRegElem else .ok e.nvlRegElem) with
    | .error c => .ok (.error c)
    | .ok nvlRegElem =>
      if e.ibRegElem ≠ none then .error .abort
      else
        match (if b.ibEnabled then tryRegMem b.ibRegMem e.ibRegElem else .ok e.ibRegElem) with
        | .error c => .ok (.error c)
        | .ok ibRegElem =>
          if b.tcpDmEnabled ∧ passes b.tcpRegMem.1 = false then .ok (.error b.tcpRegMem.1)
          else .ok (.ok { e with
            nvlRegElem, ibRegElem
            tcpRegElem := if b.tcpDmEnabled then some b.tcpRegMem.2 else e.tcpRegElem
            state := .REGISTERED })

/-- The backends' answers to deregistrations, by handle. -/
structure Deregs where
  nvl : ℕ → CommResult
  ib : ℕ → CommResult
  tcp : ℕ → CommResult

/-- The handle left after `deregMem`, null where the backend took it back. -/
def deregMem (answer : ℕ → CommResult) : Option ℕ → CommResult × Option ℕ
  | none => (.commSuccess, none)
  | some hdl => if passes (answer hdl) then (.commSuccess, none) else (answer hdl, some hdl)

def doDeregister (d : Deregs) (e : CtranMapperRegElem) :
    Except Fault (CommResult × CtranMapperRegElem) :=
  if e.state ≠ .REGISTERED then .error .abort
  else
    let (c, nvlRegElem) := deregMem d.nvl e.nvlRegElem
    let e := { e with nvlRegElem }
    if c ≠ .commSuccess then .ok (c, e)
    else
      let (c, ibRegElem) := deregMem d.ib e.ibRegElem
      let e := { e with ibRegElem }
      if c ≠ .commSuccess then .ok (c, e)
      else
        let (c, tcpRegElem) := deregMem d.tcp e.tcpRegElem
        let e := { e with tcpRegElem }
        if c ≠ .commSuccess then .ok (c, e)
        else .ok (.commSuccess, { e with state := .DEREGISTERED })

/-- No backend refuses a handle of the element. -/
def Deregs.Accepts (d : Deregs) (e : CtranMapperRegElem) : Prop :=
  (deregMem d.nvl e.nvlRegElem).1 = .commSuccess ∧ (deregMem d.ib e.ibRegElem).1 = .commSuccess ∧
    (deregMem d.tcp e.tcpRegElem).1 = .commSuccess

instance (d : Deregs) (e : CtranMapperRegElem) : Decidable (d.Accepts e) :=
  inferInstanceAs (Decidable (_ ∧ _ ∧ _))

/-! ### The cache -/

abbrev RegElems := AList fun _ : ℕ => CtranMapperRegElem

structure CtranMapperRegCache where
  segmentsAvl_ : CtranAvlTree := .empty
  segments : AList (fun _ : ℕ => CtranMapperSegment) := ∅
  regHdlToElemMap : RegElems := ∅
  segToRegElemsMap : AList (fun _ : ℕ => List ℕ) := ∅
  returned : List ℕ := []

namespace CtranMapperRegCache

/-- An address that the allocator may hand out. -/
def Fresh (t : CtranMapperRegCache) (addr : ℕ) : Prop :=
  addr ≠ 0 ∧ addr ∉ t.segmentsAvl_.handles_ ∧ t.segments.lookup addr = none ∧
    t.regHdlToElemMap.lookup addr = none ∧ addr ∉ t.returned

instance (t : CtranMapperRegCache) (addr : ℕ) : Decidable (t.Fresh addr) :=
  inferInstanceAs (Decidable (_ ∧ _ ∧ _ ∧ _ ∧ _))

/-- `segmentsAvl->lookup`, a null pointer for a handle that is not in the tree. -/
def segmentPtr (t : CtranMapperRegCache) (segHdl : ℕ) : Except Fault ℕ :=
  (t.segmentsAvl_.lookup segHdl).mapError .avl

def derefSegment (t : CtranMapperRegCache) (segment : ℕ) : Except Fault CtranMapperSegment :=
  match t.segments.lookup segment with
  | some s => .ok s
  | none => .error .danglingSegment

structure Cached where
  result : CommResult
  segment : ℕ
  segHdl : ℕ
deriving DecidableEq, Repr

/-- `cacheSegment`, given the addresses of the segment and of the tree node it may allocate. -/
def cacheSegment (t : CtranMapperRegCache) (drv : Driver) (ptr len : ℕ) (cudaDev : ℤ)
    (ncclManaged : Bool) (newSeg newNode : ℕ) : Except Fault (Cached × CtranMapperRegCache) :=
  match t.segmentsAvl_.search ptr len with
  | some avlHdl =>
    match t.segmentPtr avlHdl with
    | .error f => .error f
    | .ok foundSeg =>
      match t.derefSegment foundSeg with
      | .error f => .error f
      | .ok seg => .ok (⟨.commSuccess, foundSeg, seg.avlHdl_⟩, { t with
          segments := t.segments.insert foundSeg { seg with refCount := seg.refCount + 1 } })
  | none =>
    match pinRange drv ptr cudaDev len with
    | .error c => .ok (⟨c, 0, 0⟩, t)
    | .ok [range] =>
      let (avlHdl, avl) := t.segmentsAvl_.insert ⟨newNode, range.buf, range.len, newSeg⟩
      .ok (⟨.commSuccess, newSeg, avlHdl⟩, { t with
        segmentsAvl_ := avl
        segments := t.segments.insert newSeg { range, cudaDev, ncclManaged, avlHdl_ := avlHdl } })
    | .ok _ => .error .abort

/-- The range lies within that of a cached, hence not dynamic, element. -/
def Hit (ptr len : ℕ) (e : CtranMapperRegElem) : Prop :=
  e.isDynamic_ = false ∧ e.buf ≤ ptr ∧ endAddr ptr len ≤ endAddr e.buf e.len

instance (ptr len : ℕ) (e : CtranMapperRegElem) : Decidable (Hit ptr len e) :=
  inferInstanceAs (Decidable (_ ∧ _ ∧ _))

/-- `searchRegElem`, given the order in which the hash map is walked. -/
def searchRegElem (t : CtranMapperRegCache) (order : List ℕ) (ptr len : ℕ) :
    Option (ℕ × CtranMapperRegCache) :=
  match order with
  | [] => none
  | regHdl :: order =>
    match t.regHdlToElemMap.lookup regHdl with
    | none => searchRegElem t order ptr len
    | some e =>
      if Hit ptr len e then
        some (regHdl, { t with
          regHdlToElemMap := t.regHdlToElemMap.insert regHdl { e with lookupHit_ := e.lookupHit_ + 1 } })
      else searchRegElem t order ptr len

/-- The cached segments of the ranges, or `none` when one of them is not cached. -/
def findSegments (t : CtranMapperRegCache) :
    List CtranMapperSegmentRange → Except Fault (Option (List (ℕ × CtranMapperSegment)))
  | [] => .ok (some [])
  | segRange :: ranges =>
    match t.segmentsAvl_.search segRange.buf segRange.len with
    | none => .ok none
    | some avlHdl =>
      match t.segmentPtr avlHdl with
      | .error f => .error f
      | .ok segment =>
        match t.derefSegment segment with
        | .error f => .error f
        | .ok seg => (findSegments t ranges).map (Option.map ((segment, seg) :: ·))

structure Ranged where
  result : CommResult
  didRegister : Bool
  regHdl : ℕ
deriving DecidableEq, Repr

/-- Enter a registered element under its segments. -/
def addRegElem (t : CtranMapperRegCache) (regHdl : ℕ) (e : CtranMapperRegElem) :
    CtranMapperRegCache :=
  { t with
    regHdlToElemMap := t.regHdlToElemMap.insert regHdl e
    segToRegElemsMap := InvertedIndex.file t.segToRegElemsMap regHdl e.segments_ }

/-- `regRange` from the global lock on, given the address of the element it may allocate. -/
def regRangeLocked (t : CtranMapperRegCache) (drv : Driver) (b : Backends) (order : List ℕ)
    (ptr len : ℕ) (cudaDev : ℤ) (newElem : ℕ) : Except Fault (Ranged × CtranMapperRegCache) :=
  match t.searchRegElem order ptr len with
  | some (regHdl, t) => .ok (⟨.commSuccess, false, regHdl⟩, t)
  | none =>
    match pinRange drv ptr cudaDev len with
    | .error c => .ok (⟨c, false, 0⟩, t)
    | .ok ranges =>
      match t.findSegments ranges with
      | .error f => .error f
      | .ok none => .ok (⟨.commSuccess, false, 0⟩, t)
      | .ok (some []) => .error .outOfRange
      | .ok (some (first :: rest)) =>
        let segments := first :: rest
        let lenToReg := (segments.map fun s => s.2.range.len).sum
        match doRegister b { buf := first.2.range.buf, len := lenToReg, cudaDev_ := cudaDev,
                             segments_ := segments.map Prod.fst, type_ := first.2.range.type } with
        | .error f => .error f
        | .ok (.error c) => .ok (⟨c, false, 0⟩, t)
        | .ok (.ok e) => .ok (⟨.commSuccess, true, newElem⟩, t.addRegElem newElem e)

def regRange (t : CtranMapperRegCache) (drv : Driver) (b : Backends) (order : List ℕ)
    (ptr len : ℕ) (cudaDev : ℤ) (newElem : ℕ) : Except Fault (Ranged × CtranMapperRegCache) :=
  match t.searchRegElem order ptr len with
  | some (regHdl, t) => .ok (⟨.commSuccess, false, regHdl⟩, t)
  | none => t.regRangeLocked drv b order ptr len cudaDev newElem

/-- `regDynamic`; the second component is the element's address, null on failure. -/
def regDynamic (t : CtranMapperRegCache) (drv : Driver) (b : Backends) (ptr len : ℕ) (cudaDev : ℤ)
    (newElem : ℕ) : Except Fault ((CommResult × ℕ) × CtranMapperRegCache) :=
  match pinRange drv ptr cudaDev len with
  | .error c => .ok ((c, 0), t)
  | .ok [] => .error .abort
  | .ok (first :: rest) =>
    let lenToReg := ((first :: rest).map CtranMapperSegmentRange.len).sum
    match doRegister b { buf := first.buf, len := lenToReg, cudaDev_ := cudaDev, isDynamic_ := true,
                         type_ := first.type } with
    | .error f => .error f
    | .ok (.error c) => .ok ((c, 0), t)
    | .ok (.ok e) => .ok ((.commSuccess, newElem),
        { t with regHdlToElemMap := t.regHdlToElemMap.insert newElem e })

def deregDynamic (t : CtranMapperRegCache) (d : Deregs) (regHdl : ℕ) :
    Except Fault (CommResult × CtranMapperRegCache) :=
  match t.regHdlToElemMap.lookup regHdl with
  | none => .ok (.commInvalidUsage, t)
  | some e =>
    match doDeregister d e with
    | .error f => .error f
    | .ok (c, _) => .ok (c, { t with regHdlToElemMap := t.regHdlToElemMap.erase regHdl })

/-- `getRegElems`. -/
def getRegElems (t : CtranMapperRegCache) (segHdl : ℕ) : Except Fault (List ℕ) :=
  match t.segmentPtr segHdl with
  | .error f => .error f
  | .ok segment =>
    if segment = 0 then .ok [] else .ok ((t.segToRegElemsMap.lookup segment).getD [])

def askFree (s : CtranMapperSegment) : Except Fault (Bool × CtranMapperSegment) :=
  let s := { s with refCount := s.refCount - 1 }
  if s.refCount < 0 then .error .abort else .ok (s.refCount = 0, s)

/-- Deregister the elements in turn, stopping at the first that fails. -/
def deregElems (d : Deregs) : List (ℕ × CtranMapperRegElem) →
    Except Fault (CommResult × List (ℕ × CtranMapperRegElem))
  | [] => .ok (.commSuccess, [])
  | (regHdl, e) :: elems =>
    match doDeregister d e with
    | .error f => .error f
    | .ok (c, e) =>
      if c ≠ .commSuccess then .ok (c, (regHdl, e) :: elems)
      else (deregElems d elems).map fun r => (r.1, (regHdl, e) :: r.2)

structure Freed where
  result : CommResult
  freed : Bool := false
  ncclManaged : Option Bool := none
  regElems : List (ℕ × CtranMapperRegElem) := []
deriving DecidableEq, Repr

/-- The elements listed under the segment, out of both tables. -/
def takeRegElems (t : CtranMapperRegCache) (segment : ℕ) :
    List (ℕ × CtranMapperRegElem) × CtranMapperRegCache :=
  match t.segToRegElemsMap.lookup segment with
  | none => ([], t)
  | some regHdls =>
    let (regElems, regHdlToElemMap) := InvertedIndex.take regHdls t.regHdlToElemMap
    (regElems, { t with regHdlToElemMap, segToRegElemsMap := t.segToRegElemsMap.erase segment })

/-- `freeSegment` called with an empty `regElems`, which the caller owns afterwards. A segment
whose elements are not all deregistered is leaked. -/
def freeSegment (t : CtranMapperRegCache) (d : Deregs) (segHdl : ℕ) :
    Except Fault (Freed × CtranMapperRegCache) :=
  match t.segmentPtr segHdl with
  | .error f => .error f
  | .ok segment =>
    if segment = 0 then .ok ({ result := .commInvalidUsage }, t)
    else
      match t.derefSegment segment with
      | .error f => .error f
      | .ok seg =>
        match askFree seg with
        | .error f => .error f
        | .ok (free, seg) =>
          let t := { t with segments := t.segments.insert segment seg }
          if free = false then
            .ok ({ result := .commSuccess, ncclManaged := some seg.ncclManaged }, t)
          else
            let (regElems, t) := t.takeRegElems segment
            let t := { t with returned := t.returned ++ regElems.map Prod.fst }
            match t.segmentsAvl_.remove seg.avlHdl_ with
            | .error f => .error (.avl f)
            | .ok (c, avl) =>
              if passes c = false then
                .ok ({ result := c, ncclManaged := some seg.ncclManaged, regElems }, t)
              else
                match deregElems d regElems with
                | .error f => .error f
                | .ok (c, regElems) =>
                  let out := { result := c, freed := true, ncclManaged := some seg.ncclManaged,
                               regElems }
                  let t := { t with segmentsAvl_ := avl }
                  if c ≠ .commSuccess then .ok (out, t)
                  else .ok (out, { t with segments := t.segments.erase segment })

/-- The caller destroys an element it got from `freeSegment`. -/
def destroyRegElem (t : CtranMapperRegCache) (regHdl : ℕ) : CtranMapperRegCache :=
  { t with returned := t.returned.filter (· ≠ regHdl) }

inductive Op where
  | cacheSegment (drv : Driver) (ptr len : ℕ) (cudaDev : ℤ) (ncclManaged : Bool)
      (newSeg newNode : ℕ)
  | regRange (drv : Driver) (b : Backends) (order : List ℕ) (ptr len : ℕ) (cudaDev : ℤ)
      (newElem : ℕ)
  | regDynamic (drv : Driver) (b : Backends) (ptr len : ℕ) (cudaDev : ℤ) (newElem : ℕ)
  | deregDynamic (d : Deregs) (regHdl : ℕ)
  | freeSegment (d : Deregs) (segHdl : ℕ)
  | destroyRegElem (regHdl : ℕ)

def step (t : CtranMapperRegCache) : Op → Except Fault CtranMapperRegCache
  | .cacheSegment drv ptr len cudaDev ncclManaged newSeg newNode =>
    (t.cacheSegment drv ptr len cudaDev ncclManaged newSeg newNode).map Prod.snd
  | .regRange drv b order ptr len cudaDev newElem =>
    (t.regRange drv b order ptr len cudaDev newElem).map Prod.snd
  | .regDynamic drv b ptr len cudaDev newElem =>
    (t.regDynamic drv b ptr len cudaDev newElem).map Prod.snd
  | .deregDynamic d regHdl => (t.deregDynamic d regHdl).map Prod.snd
  | .freeSegment d segHdl => (t.freeSegment d segHdl).map Prod.snd
  | .destroyRegElem regHdl => .ok (t.destroyRegElem regHdl)

/-- What the allocator and a caller keep to: new objects go where nothing lives, and a buffer does
not wrap around the address space. -/
def WellFormed (_ : List Op) (t : CtranMapperRegCache) : Op → Prop
  | .cacheSegment _ ptr len _ _ newSeg newNode =>
    t.Fresh newSeg ∧ t.Fresh newNode ∧ newSeg ≠ newNode ∧ ptr + len < 2 ^ 64
  | .regRange _ _ _ _ _ _ newElem => t.Fresh newElem
  | .regDynamic _ _ _ _ _ newElem => t.Fresh newElem
  | _ => True

end CtranMapperRegCache
end TorchComms.Mapper
