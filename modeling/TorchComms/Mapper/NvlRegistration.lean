import Mathlib.Data.List.Basic

/-! # Registrations exported over NVLink

A rank exports registrations to a peer and tells it with a control message when one goes away. The
peer keeps one mapping for each base address. An export message waits for its receive to be looked
at before it is imported; a release message is handled by a callback as soon as it arrives.
-/
namespace TorchComms.Mapper.Nvl

open Function

/-- What the peer needs to map a range: its base and the allocations behind it from there on. -/
structure CtranIpcDesc where
  base : ℕ
  segments : List ℕ
  deriving DecidableEq, Repr

/-- A registration: its handle, the base address of the first allocation it touches and all the
allocations that it touches. -/
structure RegElem where
  hdl : ℕ
  base : ℕ
  allocHandles : List ℕ
  deriving DecidableEq, Repr

def RegElem.ipcExport (r : RegElem) : CtranIpcDesc := ⟨r.base, r.allocHandles⟩

/-- An export message names its registration; the peer reads only `ipcExport` of it. -/
inductive ControlMsg
  | NVL_EXPORT_MEM (regElem : RegElem)
  | NVL_RELEASE_MEM (base : ℕ)
  deriving DecidableEq, Repr

def ControlMsg.base : ControlMsg → ℕ
  | NVL_EXPORT_MEM r => r.base
  | NVL_RELEASE_MEM b => b

def ControlMsg.regElem? : ControlMsg → Option RegElem
  | NVL_EXPORT_MEM r => some r
  | NVL_RELEASE_MEM _ => none

/-- The mappings imported from the exporter, by base. -/
abbrev RemRegMap := ℕ → Option (List ℕ)

/-- With the mapping that the caller gets. -/
def importRemReg (m : RemRegMap) (ipcDesc : CtranIpcDesc) : RemRegMap × List ℕ :=
  match m ipcDesc.base with
  | some mapped => (m, mapped)
  | none => (update m ipcDesc.base (some ipcDesc.segments), ipcDesc.segments)

/-- `none` is the error on an unknown base. -/
def releaseRemReg (m : RemRegMap) (base : ℕ) : Option RemRegMap :=
  if m base = none then none else some (update m base none)

structure State where
  /-- The exporter's registrations. -/
  regs : List RegElem
  /-- The registrations whose set of exported ranks holds the peer. -/
  exportRegCache : List RegElem
  channel : List ControlMsg
  /-- Export messages that have arrived and are not imported yet. -/
  received : List RegElem
  remRegMap : RemRegMap
  /-- Release messages that found no mapping. -/
  unknown : ℕ
  /-- The registrations held by the exporter that the peer has imported. -/
  imported : List RegElem
  /-- The bases whose mapping the peer has to release without a message. -/
  owed : List ℕ

inductive Op
  | regMem (r : RegElem)
  | exportMem (r : RegElem)
  | deregMem (regElems : List RegElem) (skipRemRelease : Bool)
  | deregDynamic (r : RegElem)
  | arrive
  | importMem
  | deregRemReg (base : ℕ)
  deriving DecidableEq, Repr

namespace State

def init : State := ⟨[], [], [], [], fun _ => none, 0, [], []⟩

variable (s : State)

/-- `exportRegCache_.remove`. -/
def remove (r : RegElem) : State :=
  { s with
    exportRegCache := s.exportRegCache.filter (· ≠ r)
    imported := s.imported.filter (· ≠ r) }

/-- A release message follows where the registration was exported. -/
def remReleaseMem (r : RegElem) : State :=
  if r ∈ s.exportRegCache then
    { s.remove r with channel := s.channel ++ [.NVL_RELEASE_MEM r.base] }
  else s

/-- The caller sees to the release at the peer. -/
def skipRelease (r : RegElem) : State :=
  if r ∈ s.exportRegCache then { s.remove r with owed := r.base :: s.owed } else s

def freeSegment (rs : List RegElem) : State :=
  { s with regs := s.regs.filter (· ∉ rs) }

def deregMem (regElems : List RegElem) (skipRemRelease : Bool) : State :=
  (regElems.foldl (if skipRemRelease then skipRelease else remReleaseMem) s).freeSegment regElems

def exportMem (r : RegElem) : State :=
  { s with
    exportRegCache := s.exportRegCache.insert r
    channel := s.channel ++ [.NVL_EXPORT_MEM r] }

def importMem (r : RegElem) (rest : List RegElem) : State :=
  { s with
    received := rest
    remRegMap := (importRemReg s.remRegMap r.ipcExport).1
    imported := s.imported.insert r }

/-- `releaseMemCb`. -/
def releaseMemCb (base : ℕ) : State :=
  match releaseRemReg s.remRegMap base with
  | some m => { s with remRegMap := m }
  | none => { s with unknown := s.unknown + 1 }

def arrive (msg : ControlMsg) (rest : List ControlMsg) : State :=
  match msg with
  | .NVL_EXPORT_MEM r => { s with channel := rest, received := s.received ++ [r] }
  | .NVL_RELEASE_MEM base => { s with channel := rest }.releaseMemCb base

def step : Op → Option State
  | .regMem r =>
    if ∃ r' ∈ s.regs, r'.hdl = r.hdl then none else some { s with regs := r :: s.regs }
  | .exportMem r => if r ∈ s.regs then some (s.exportMem r) else none
  | .deregMem regElems skip =>
    if ∀ r ∈ regElems, r ∈ s.regs then some (s.deregMem regElems skip) else none
  | .deregDynamic r =>
    if r ∈ s.regs then some ((s.remReleaseMem r).freeSegment [r]) else none
  | .arrive =>
    match s.channel with
    | [] => none
    | msg :: rest => some (s.arrive msg rest)
  | .importMem =>
    match s.received with
    | [] => none
    | r :: rest => some (s.importMem r rest)
  | .deregRemReg base =>
    match releaseRemReg s.remRegMap base with
    | some m => some { s with remRegMap := m, owed := s.owed.erase base }
    | none => none

/-- The exports that the peer has not imported yet, in order. -/
def pending : List RegElem := s.received ++ s.channel.filterMap ControlMsg.regElem?

/-- No other registration over the same base is exported, and no export of it is under way. -/
def Alone (r : RegElem) : Prop :=
  (∀ r' ∈ s.exportRegCache, r'.base = r.base → r' = r) ∧ ∀ p ∈ s.pending, p.base ≠ r.base

instance (r : RegElem) : Decidable (s.Alone r) := inferInstanceAs (Decidable (_ ∧ _))

/-- Registrations exported together over one base are released only when one is left and the peer
has imported it; a later one touches no more allocations than an earlier one. The peer releases a
mapping itself only where no message will. -/
def Meets : Op → Prop
  | .exportMem r =>
    (∀ r' ∈ s.exportRegCache, r'.base = r.base → r.allocHandles <+: r'.allocHandles) ∧
      r.base ∉ s.owed
  | .deregMem regElems _ => ∀ r ∈ regElems, r ∈ s.exportRegCache → s.Alone r
  | .deregDynamic r => r ∈ s.exportRegCache → s.Alone r
  | .deregRemReg base => base ∈ s.owed
  | _ => True

instance : (op : Op) → Decidable (s.Meets op)
  | .exportMem _ => inferInstanceAs (Decidable ((∀ r' ∈ s.exportRegCache, _) ∧ _))
  | .deregMem regElems _ =>
    inferInstanceAs (Decidable (∀ r ∈ regElems, r ∈ s.exportRegCache → s.Alone r))
  | .deregDynamic r => inferInstanceAs (Decidable (r ∈ s.exportRegCache → s.Alone r))
  | .deregRemReg base => inferInstanceAs (Decidable (base ∈ s.owed))
  | .regMem _ | .arrive | .importMem => inferInstanceAs (Decidable True)

/-- The mappings at the peer are those that the exporter's registrations need. -/
structure Sound : Prop where
  /-- A registration that the peer has imported is mapped as long as the exporter holds it. -/
  mapped : ∀ r ∈ s.regs, r ∈ s.imported →
    ∃ m, s.remRegMap r.base = some m ∧ r.allocHandles <+: m
  /-- Every release message has found its mapping. -/
  found : s.unknown = 0
  /-- A base of which nothing is exported or under way has no mapping left. -/
  gone : ∀ b, (∀ r ∈ s.exportRegCache, r.base ≠ b) → (∀ msg ∈ s.channel, msg.base ≠ b) →
    (∀ r ∈ s.received, r.base ≠ b) → b ∉ s.owed → s.remRegMap b = none

end State

/-- The states of a run whose steps all meet `Good`. -/
inductive Reachable (Good : State → Op → Prop) : State → Prop
  | init : Reachable Good .init
  | step {s s' op} : Reachable Good s → Good s op → s.step op = some s' → Reachable Good s'

end TorchComms.Mapper.Nvl
