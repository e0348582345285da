import Mathlib.Data.List.Basic

/-! # The caching allocator hook

The hook keeps the live segments of the allocator and the attached communicators, and registers
each segment with each communicator. A registration or deregistration may throw, which ends the
operation where it is.
-/
namespace TorchComms.Ncclx.AllocatorHook

open Function

/-- What a communicator has registered: `memoryRegistrationHandles_` with the lengths. -/
abbrev Handles := ℕ → List (ℕ × ℕ)

/-- `contains` of a map from addresses. -/
def contains (m : List (ℕ × ℕ)) (addr : ℕ) : Bool := m.any fun e => e.1 = addr

def erase (m : List (ℕ × ℕ)) (addr : ℕ) : List (ℕ × ℕ) := m.filter fun e => e.1 ≠ addr

/-- A call of a communicator. -/
inductive Call
  | register_address (comm addr len : ℕ)
  | deregister_address (comm addr : ℕ)
  deriving DecidableEq, Repr

/-- The handles after a call, and whether it has thrown. NCCL is asked where the address has no
handle yet, or has one. -/
def Call.run (ncclFails : Bool) (h : Handles) : Call → Handles × Bool
  | register_address comm addr len =>
    if contains (h comm) addr then (h, true)
    else if ncclFails then (h, true)
    else (update h comm (h comm ++ [(addr, len)]), false)
  | deregister_address comm addr =>
    if !contains (h comm) addr then (h, false)
    else if ncclFails then (h, true)
    else (update h comm (erase (h comm) addr), false)

/-- The calls of a loop up to the first that throws; `fails i` is what NCCL does in the `i`-th. -/
def runCalls (fails : ℕ → Bool) : ℕ → List Call → Handles → Handles × Bool
  | _, [], h => (h, false)
  | i, call :: calls, h =>
    match call.run (fails i) h with
    | (h', true) => (h', true)
    | (h', false) => runCalls fails (i + 1) calls h'

inductive Action
  | SEGMENT_ALLOC
  | SEGMENT_FREE
  | other
  deriving DecidableEq, Repr

structure TraceEntry where
  action : Action
  addr : ℕ
  size : ℕ
  deriving DecidableEq, Repr

structure Hook where
  registeredMemMap : List (ℕ × ℕ)
  registeredComms : List ℕ
  handles : Handles

inductive Op
  | regDeregMem (te : TraceEntry)
  | registerComm (comm : ℕ)
  | deregisterComm (comm : ℕ)
  | clear
  deriving DecidableEq, Repr

namespace Hook

def init : Hook := ⟨[], [], fun _ => []⟩

variable (s : Hook) (mem : List (ℕ × ℕ)) (comms : List ℕ) (fails : ℕ → Bool)

/-- The map is changed first. -/
def regDeregMem (te : TraceEntry) : Hook × Bool :=
  match te.action with
  | .SEGMENT_ALLOC =>
    if contains s.registeredMemMap te.addr then (s, true)
    else
      match runCalls fails 0 (comms.map fun c => .register_address c te.addr te.size) s.handles with
      | (h, threw) =>
        ({ s with registeredMemMap := (te.addr, te.size) :: s.registeredMemMap, handles := h },
          threw)
  | .SEGMENT_FREE =>
    if !contains s.registeredMemMap te.addr then (s, true)
    else
      match runCalls fails 0 (comms.map fun c => .deregister_address c te.addr) s.handles with
      | (h, threw) =>
        ({ s with registeredMemMap := erase s.registeredMemMap te.addr, handles := h }, threw)
  | .other => (s, false)

def registerComm (comm : ℕ) : Hook × Bool :=
  if comm ∈ s.registeredComms then (s, true)
  else
    match runCalls fails 0 (mem.map fun e => .register_address comm e.1 e.2) s.handles with
    | (h, true) => ({ s with handles := h }, true)
    | (h, false) => ({ s with registeredComms := comm :: s.registeredComms, handles := h }, false)

def deregisterComm (comm : ℕ) : Hook × Bool :=
  if comm ∉ s.registeredComms then (s, false)
  else
    match runCalls fails 0 (mem.map fun e => .deregister_address comm e.1) s.handles with
    | (h, true) => ({ s with handles := h }, true)
    | (h, false) =>
      ({ s with registeredComms := s.registeredComms.filter (· ≠ comm), handles := h }, false)

def clear : Hook × Bool :=
  match runCalls fails 0
    (comms.flatMap fun c => mem.map fun e => .deregister_address c e.1) s.handles with
  | (h, true) => ({ s with handles := h }, true)
  | (h, false) => (⟨[], [], h⟩, false)

/-- An operation that walks the map and the set in these orders, with whether it has thrown. -/
def exec : Op → Hook × Bool
  | .regDeregMem te => s.regDeregMem comms fails te
  | .registerComm comm => s.registerComm mem fails comm
  | .deregisterComm comm => s.deregisterComm mem fails comm
  | .clear => s.clear mem comms fails

/-- The same segments, communicators and registrations. -/
structure Same (s t : Hook) : Prop where
  mem : t.registeredMemMap.Perm s.registeredMemMap
  comms : t.registeredComms.Perm s.registeredComms
  handles : ∀ c, (t.handles c).Perm (s.handles c)

/-- Each attached communicator has each segment registered once, the others have nothing. -/
structure Attached (s : Hook) : Prop where
  mem : (s.registeredMemMap.map (·.1)).Nodup
  comms : s.registeredComms.Nodup
  attached : ∀ c ∈ s.registeredComms, (s.handles c).Perm s.registeredMemMap
  others : ∀ c, c ∉ s.registeredComms → s.handles c = []

/-- An operation that returns leaves exactly the live segments registered, one that throws leaves
everything as it was. -/
def Correct (s : Hook) (r : Hook × Bool) : Prop :=
  (r.2 = false → r.1.Attached) ∧ (r.2 = true → s.Same r.1)

/-- The calls that an operation makes unless one throws. -/
def calls : Op → List Call
  | .regDeregMem te =>
    match te.action with
    | .SEGMENT_ALLOC =>
      if contains s.registeredMemMap te.addr then []
      else comms.map fun c => .register_address c te.addr te.size
    | .SEGMENT_FREE =>
      if contains s.registeredMemMap te.addr then
        comms.map fun c => .deregister_address c te.addr
      else []
    | .other => []
  | .registerComm comm =>
    if comm ∈ s.registeredComms then [] else mem.map fun e => .register_address comm e.1 e.2
  | .deregisterComm comm =>
    if comm ∈ s.registeredComms then mem.map fun e => .deregister_address comm e.1 else []
  | .clear => comms.flatMap fun c => mem.map fun e => .deregister_address c e.1

end Hook

def Op.isTrace : Op → Bool
  | .regDeregMem _ => true
  | _ => false

/-- NCCL fails in no call of the operation, or in its first call and the operation is not the one
that changes the map before its calls. -/
def Meets (s : Hook) (mem : List (ℕ × ℕ)) (comms : List ℕ) (fails : ℕ → Bool) (op : Op) : Prop :=
  (∀ i < (s.calls mem comms op).length, fails i = false) ∨ fails 0 = true ∧ op.isTrace = false

/-- The states of the runs whose operations all meet the condition, whether they throw or not. The
map and the set are walked in any order. -/
inductive Reachable : Hook → Prop
  | init : Reachable .init
  | step {s : Hook} (mem : List (ℕ × ℕ)) (comms : List ℕ) (fails : ℕ → Bool) (op : Op)
      (h : Reachable s) (hmem : mem.Perm s.registeredMemMap)
      (hcomms : comms.Perm s.registeredComms) (hop : Meets s mem comms fails op) :
      Reachable (s.exec mem comms fails op).1

end TorchComms.Ncclx.AllocatorHook
