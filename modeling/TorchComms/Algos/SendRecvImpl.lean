import TorchComms.Algos.GroupSendRecv
import TorchComms.Foundation.Simulation

/-! # The calls of a grouped send and receive

`sendRecvImpl` call by call. A mapper call may fail, the communicator may be aborted at any time, and
what a backend or a kernel has accepted completes at any time after. The requests that the function
has made are destroyed when it is left.
-/
namespace TorchComms.Algos.SendRecvImpl
open GroupSendRecv

/-- The elements of `sendCtrlReqs`, `recvCtrlReqs` and `putReqs`. -/
inductive Req
  | ctrl (type : OpType) (i : ℕ)
  | put (i : ℕ)
  deriving DecidableEq

/-- `post` is `irecvCtrl`, `isendCtrl` or `iput`, and `test` is `testRequest`. -/
inductive Call
  | searchRegHandle (type : OpType) (i : ℕ)
  | post (r : Req)
  | initNotify (i : ℕ)
  | test (r : Req)
  | waitNotify (i : ℕ)
  | deregDynamic (hdl : ℕ)
  deriving DecidableEq

/-- `localReg` is a handle made for this call, `kernel` says that a put has gone to a kernel. A call
that fails returns an error or throws. -/
inductive Answer
  | ok
  | localReg (hdl : ℕ)
  | kernel
  | failed
  deriving DecidableEq

inductive Event
  | complete (r : Req)
  | abort
  | testAbort (aborted : Bool)
  | returned (c : Call) (a : Answer)
  | goOn
  deriving DecidableEq

/-- How the function is left. -/
inductive Exit
  | success
  | failed
  | threw
  | crashed
  deriving DecidableEq

/-- The loops over the operations of a kind, the rounds of `sweep` that put, the loop of `waitRequest`
before and after its call, and the check behind it. -/
inductive Pc
  | search (type : OpType) (i : ℕ)
  | post (type : OpType) (i : ℕ)
  | initNotify (i : ℕ)
  | putLoop
  | sweep (i : ℕ)
  | iput (i : ℕ)
  | wait (type : OpType) (i : ℕ)
  | probe (type : OpType) (i : ℕ)
  | waited (type : OpType) (i : ℕ)
  | waitNotify (i : ℕ)
  | notified (i : ℕ)
  | dereg (i : ℕ)
  | left (x : Exit)
  deriving DecidableEq

/-- `stored` are the requests in the containers, `held` those that the IB or the socket backend
points to, `atKernel` the puts that a kernel has not finished. `nullUse` says that a null pointer
was tested or waited for. -/
structure State where
  pc : Pc := .search .SEND 0
  stored : List Req := []
  held : List Req := []
  atKernel : List Req := []
  tmpRegHdls : List ℕ := []
  deregistered : List ℕ := []
  nullUse : Bool := false
  aborted : Bool := false
  deriving DecidableEq

namespace State

def goto (s : State) (pc : Pc) : State := { s with pc := pc }

/-- What `isComplete` says. -/
def Completed (s : State) (r : Req) : Prop := r ∉ s.held ∧ r ∉ s.atKernel

instance (s : State) (r : Req) : Decidable (s.Completed r) := inferInstanceAs (Decidable (_ ∧ _))

def complete (s : State) (r : Req) : State :=
  { s with held := s.held.filter (· ≠ r), atKernel := s.atKernel.filter (· ≠ r) }

/-- The pointer to a request is read from its container. -/
def useReq (s : State) (r : Req) : State := { s with nullUse := s.nullUse || decide (r ∉ s.stored) }

def postToBackend (s : State) (r : Req) : State :=
  { s with stored := r :: s.stored, held := r :: s.held }

def postToKernel (s : State) (r : Req) : State :=
  { s with stored := r :: s.stored, atKernel := r :: s.atKernel }

/-- `putReqs.size()`. -/
def putCount (s : State) (numSends : ℕ) : ℕ :=
  ((List.range numSends).filter fun i => Req.put i ∈ s.stored).length

end State

/-- The number of operations of a kind. -/
def numOps (opGroup : List OpElem) (type : OpType) : ℕ := opGroup.countP fun op => op.type = type

/-- The request that the last loops wait for. -/
def waitReq : OpType → ℕ → Req
  | .SEND, i => .put i
  | .RECV, i => .ctrl .RECV i

/-- The loop behind the one over `searchRegHandle`, `irecvCtrl` or `isendCtrl`. -/
def afterSearch (type : OpType) : Pc := .post type 0

def afterPost : OpType → Pc
  | .SEND => .search .RECV 0
  | .RECV => .putLoop

def afterPosted (i : ℕ) : OpType → Pc
  | .SEND => .post .SEND (i + 1)
  | .RECV => .initNotify i

def afterWait : OpType → Pc
  | .SEND => .wait .RECV 0
  | .RECV => .dereg 0

def afterWaited (i : ℕ) : OpType → Pc
  | .SEND => .wait .SEND (i + 1)
  | .RECV => .waitNotify i

/-- The call that is made at a place, if there is one. -/
def callAt (n : OpType → ℕ) (s : State) : Option Call :=
  match s.pc with
  | .search type i => if i < n type then some (.searchRegHandle type i) else none
  | .post type i => if i < n type then some (.post (.ctrl type i)) else none
  | .initNotify i => some (.initNotify i)
  | .sweep i => if i < n .SEND ∧ .put i ∉ s.stored then some (.test (.ctrl .SEND i)) else none
  | .iput i => some (.post (.put i))
  | .probe type i => if waitReq type i ∈ s.stored then some (.test (waitReq type i)) else none
  | .waitNotify i => some (.waitNotify i)
  | .dereg i => s.tmpRegHdls[i]?.map .deregDynamic
  | _ => none

/-- What the environment does by itself. -/
inductive Environment (s : State) : Event → State → Prop
  | complete (r : Req) (h : ¬ s.Completed r) : Environment s (.complete r) (s.complete r)
  | abort : Environment s .abort { s with aborted := true }

/-- Steps without a call. -/
inductive Silent (n : OpType → ℕ) (s : State) : State → Prop
  | searched {type : OpType} {i : ℕ} (hpc : s.pc = .search type i) (hi : n type ≤ i) :
      Silent n s (s.goto (afterSearch type))
  | posted {type : OpType} {i : ℕ} (hpc : s.pc = .post type i) (hi : n type ≤ i) :
      Silent n s (s.goto (afterPost type))
  | allPut (hpc : s.pc = .putLoop) (h : n .SEND ≤ s.putCount (n .SEND)) :
      Silent n s (s.goto (.wait .SEND 0))
  | alreadyPut {i : ℕ} (hpc : s.pc = .sweep i) (hi : i < n .SEND) (h : .put i ∈ s.stored) :
      Silent n s (s.goto (.sweep (i + 1)))
  | swept {i : ℕ} (hpc : s.pc = .sweep i) (hi : n .SEND ≤ i) : Silent n s (s.goto .putLoop)
  | allWaited {type : OpType} {i : ℕ} (hpc : s.pc = .wait type i) (hi : n type ≤ i) :
      Silent n s (s.goto (afterWait type))
  | nullProbed {type : OpType} {i : ℕ} (hpc : s.pc = .probe type i)
      (h : waitReq type i ∉ s.stored) :
      Silent n s ((s.useReq (waitReq type i)).goto (.left .crashed))
  | returns {i : ℕ} (hpc : s.pc = .dereg i) (hi : s.tmpRegHdls.length ≤ i) :
      Silent n s (s.goto (.left .success))

/-- Steps that read the abort flag. -/
inductive Tested (n : OpType → ℕ) (s : State) : Bool → State → Prop
  | put (hpc : s.pc = .putLoop) (h : s.putCount (n .SEND) < n .SEND) :
      Tested n s false (s.goto (.sweep 0))
  | putAborted (hpc : s.pc = .putLoop) (h : s.putCount (n .SEND) < n .SEND) :
      Tested n s true (s.goto (.wait .SEND 0))
  | wait {type : OpType} {i : ℕ} (hpc : s.pc = .wait type i) (hi : i < n type) :
      Tested n s false (s.goto (.probe type i))
  | waitAborted {type : OpType} {i : ℕ} (hpc : s.pc = .wait type i) (hi : i < n type) :
      Tested n s true ((s.useReq (waitReq type i)).goto (.left .threw))
  | waited {type : OpType} {i : ℕ} (hpc : s.pc = .waited type i) :
      Tested n s false (s.goto (afterWaited i type))
  | waitedAborted {type : OpType} {i : ℕ} (hpc : s.pc = .waited type i) :
      Tested n s true (s.goto (.left .threw))
  | notifyAborted {i : ℕ} (hpc : s.pc = .waitNotify i) : Tested n s true (s.goto (.left .threw))
  | notified {i : ℕ} (hpc : s.pc = .notified i) : Tested n s false (s.goto (.wait .RECV (i + 1)))
  | notifiedAborted {i : ℕ} (hpc : s.pc = .notified i) : Tested n s true (s.goto (.left .threw))

/-- A call that succeeds. -/
inductive Succeeded (s : State) : Call → Answer → State → Prop
  | cached {type : OpType} {i : ℕ} (hpc : s.pc = .search type i) :
      Succeeded s (.searchRegHandle type i) .ok (s.goto (.search type (i + 1)))
  | localReg {type : OpType} {i : ℕ} (hpc : s.pc = .search type i) (hdl : ℕ) :
      Succeeded s (.searchRegHandle type i) (.localReg hdl)
        ({ s with tmpRegHdls := s.tmpRegHdls ++ [hdl] }.goto (.search type (i + 1)))
  | ctrl {type : OpType} {i : ℕ} (hpc : s.pc = .post type i) :
      Succeeded s (.post (.ctrl type i)) .ok
        ((s.postToBackend (.ctrl type i)).goto (afterPosted i type))
  | initNotify {i : ℕ} (hpc : s.pc = .initNotify i) :
      Succeeded s (.initNotify i) .ok (s.goto (.post .RECV (i + 1)))
  | ready {i : ℕ} (hpc : s.pc = .sweep i) (h : s.Completed (.ctrl .SEND i)) :
      Succeeded s (.test (.ctrl .SEND i)) .ok ((s.useReq (.ctrl .SEND i)).goto (.iput i))
  | notReady {i : ℕ} (hpc : s.pc = .sweep i) (h : ¬ s.Completed (.ctrl .SEND i)) :
      Succeeded s (.test (.ctrl .SEND i)) .ok ((s.useReq (.ctrl .SEND i)).goto (.sweep (i + 1)))
  | put {i : ℕ} (hpc : s.pc = .iput i) :
      Succeeded s (.post (.put i)) .ok ((s.postToBackend (.put i)).goto (.sweep (i + 1)))
  | putToKernel {i : ℕ} (hpc : s.pc = .iput i) :
      Succeeded s (.post (.put i)) .kernel ((s.postToKernel (.put i)).goto (.sweep (i + 1)))
  | completed {type : OpType} {i : ℕ} (hpc : s.pc = .probe type i)
      (h : s.Completed (waitReq type i)) :
      Succeeded s (.test (waitReq type i)) .ok
        ((s.useReq (waitReq type i)).goto (.waited type i))
  | notCompleted {type : OpType} {i : ℕ} (hpc : s.pc = .probe type i)
      (h : ¬ s.Completed (waitReq type i)) :
      Succeeded s (.test (waitReq type i)) .ok ((s.useReq (waitReq type i)).goto (.wait type i))
  | notified {i : ℕ} (hpc : s.pc = .waitNotify i) :
      Succeeded s (.waitNotify i) .ok (s.goto (.notified i))
  | deregDynamic {i hdl : ℕ} (hpc : s.pc = .dereg i) :
      Succeeded s (.deregDynamic hdl) .ok
        ({ s with deregistered := s.deregistered ++ [hdl] }.goto (.dereg (i + 1)))

/-- A step, until the function is left. The abort flag is never reset meanwhile. The request of a
call that fails is leaked, not stored. -/
inductive Step (n : OpType → ℕ) (s : State) : Event → State → Prop
  | environment {e : Event} {s' : State} (hrun : ∀ x, s.pc ≠ .left x) (h : Environment s e s') :
      Step n s e s'
  | silent {s' : State} (h : Silent n s s') : Step n s .goOn s'
  | tested {b : Bool} {s' : State} (hb : s.aborted = b) (h : Tested n s b s') :
      Step n s (.testAbort b) s'
  | succeeded {c : Call} {a : Answer} {s' : State} (hcall : callAt n s = some c)
      (h : Succeeded s c a s') : Step n s (.returned c a) s'
  | failed {c : Call} (hcall : callAt n s = some c) :
      Step n s (.returned c .failed) (s.goto (.left .failed))

/-- A call of `sendRecvImpl` up to some point. -/
def SendRecvRuns (opGroup : List OpElem) (es : List Event) (s : State) : Prop :=
  Foundation.Runs (fun s e s' => Step (numOps opGroup) s e s') {} es s

end TorchComms.Algos.SendRecvImpl
