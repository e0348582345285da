import TorchComms.Foundation.Pool
import TorchComms.Gpe.KernelFlag

/-! # The pool of kernel elements

The submitting thread pops elements for an operation and reclaims those whose words all read
`RESET`. The GPE thread writes the words of an operation's elements and frees them in `~OpElem`. The thread
blocks of the operation's kernel walk its elements twice. Each access to a word is one step.
-/
namespace TorchComms.Gpe.ElemPool

open Foundation Function

/-- The launch of an operation's kernel, with its template arguments. -/
structure KernelConfig where
  gridDim : ℕ
  complete : Bool
  free : Bool
  deriving DecidableEq, Repr

def CTRAN_ALGO_MAX_THREAD_BLOCKS : ℕ := 64

/-- The call `allocKernelElems(numElems, ngroups)` for an operation. -/
structure Request where
  op : ℕ
  numElems : ℕ
  ngroups : ℕ
  deriving DecidableEq, Repr

/-- The submitting thread: it tests word `i` of the `k`-th element in use, resets word `i` of an
element that it has taken back, has elements left to pop, marks word `i` of a popped element. A
reclaim without a request is the one of `numInUseKernelElems`. -/
inductive MainPhase
  | idle
  | reclaiming (req : Option Request) (k i : ℕ)
  | resetting (req : Option Request) (k i : ℕ)
  | allocating (req : Request) (left : ℕ)
  | marking (req : Request) (left i : ℕ)
  deriving DecidableEq, Repr

/-- The host side of an operation's element: `post`, `revoke`, `unuse` and `setStatus` store a
value to all words, `free` scans and resets them. -/
inductive HostPhase
  | held
  | storing (v : ElemStatus) (i : ℕ)
  | scanning (i : ℕ)
  | resetting (i : ℕ)
  | released
  deriving DecidableEq, Repr

/-- A thread block at an element: in the first walk it polls, works, goes on to the next; in
`elemsFreeListByGroup` it loads the word, frees, goes on to the next. -/
inductive WalkPhase
  | waiting (x : ℕ)
  | working (x : ℕ)
  | advancing (x : ℕ)
  | loading (x : ℕ)
  | freeing (x : ℕ)
  | leaving (x : ℕ)
  | exited
  deriving DecidableEq, Repr

/-- The element that a block is at. -/
def WalkPhase.cursor : WalkPhase → Option ℕ
  | waiting x | working x | advancing x | loading x | freeing x | leaving x => some x
  | exited => none

/-- An operation before its submission, after it, and given up because of an error. -/
inductive Stage
  | building
  | launched
  | abandoned
  deriving DecidableEq, Repr

/-- `elems` are the elements of an operation in the order of its list. -/
structure Elems where
  pool : Pool ℕ ℕ
  ngroups : ℕ → ℕ
  status : ℕ × ℕ → ElemStatus
  next : ℕ → Option ℕ
  main : MainPhase
  elems : ℕ → List ℕ
  stage : ℕ → Stage
  host : ℕ × ℕ → HostPhase
  block : ℕ × ℕ → WalkPhase

inductive Op
  | call (req : Option Request)
  | main
  | launch (o : ℕ)
  | abandon (o : ℕ)
  | host (o x : ℕ)
  | block (o g : ℕ)
  deriving DecidableEq, Repr

namespace Elems

/-- After the pool's constructor. -/
def init (capacity : ℕ) : Elems where
  pool :=
    { free := (List.range capacity).reverse, held := none, inuse := [], owner := fun _ => none }
  ngroups := fun _ => 0
  status := fun _ => .RESET
  next := fun _ => none
  main := .idle
  elems := fun _ => []
  stage := fun _ => .building
  host := fun _ => .held
  block := fun _ => .exited

/-- Where `allocKernelElems` goes on after a reclaim. -/
def afterReclaim (s : Elems) : Option Request → MainPhase
  | none => .idle
  | some req => if s.pool.free.length < req.numElems then .idle else .allocating req req.numElems

/-- The successor of the last element of a list becomes `x`. -/
def link (next : ℕ → Option ℕ) (l : List ℕ) (x : ℕ) : ℕ → Option ℕ :=
  match l.getLast? with
  | some y => update next y (some x)
  | none => next

def gotoMain (s : Elems) (p : MainPhase) : Elems := { s with main := p }

def gotoHost (s : Elems) (o x : ℕ) (p : HostPhase) : Elems :=
  { s with host := update s.host (o, x) p }

def gotoBlock (s : Elems) (o g : ℕ) (p : WalkPhase) : Elems :=
  { s with block := update s.block (o, g) p }

def store (s : Elems) (x i : ℕ) (v : ElemStatus) : Elems :=
  { s with status := update s.status (x, i) v }

variable (kernel : ℕ → KernelConfig)

/-- The submitting thread. -/
inductive MainStep (s : Elems) : Elems → Prop
  /-- `isFree` -/
  | test (req : Option Request) (k i x : ℕ) (hmain : s.main = .reclaiming req k i)
      (hx : s.pool.inuse[k]? = some x) (hi : i < s.ngroups x) :
      MainStep s (s.gotoMain
        (if s.status (x, i) = .RESET then .reclaiming req k (i + 1) else .reclaiming req (k + 1) 0))
  /-- `erase`, and the constructor in `resetWorkElem` -/
  | erase (req : Option Request) (k i x : ℕ) (hmain : s.main = .reclaiming req k i)
      (hx : s.pool.inuse[k]? = some x) (hi : s.ngroups x ≤ i) :
      MainStep s { s with
        pool := s.pool.takeBack x k
        ngroups := update s.ngroups x 0
        next := update s.next x none
        main := .resetting req k 0 }
  | reset (req : Option Request) (k i x : ℕ) (hmain : s.main = .resetting req k i)
      (hx : s.pool.held = some x) (hi : i < CTRAN_ALGO_MAX_THREAD_BLOCKS) :
      MainStep s ((s.store x i .RESET).gotoMain (.resetting req k (i + 1)))
  | push (req : Option Request) (k i x : ℕ) (hmain : s.main = .resetting req k i)
      (hx : s.pool.held = some x) (hi : CTRAN_ALGO_MAX_THREAD_BLOCKS ≤ i) :
      MainStep s { s with pool := s.pool.push x, main := .reclaiming req k 0 }
  | endReclaim (req : Option Request) (k i : ℕ) (hmain : s.main = .reclaiming req k i)
      (hx : s.pool.inuse[k]? = none) : MainStep s (s.gotoMain (s.afterReclaim req))
  | pop (req : Request) (left x : ℕ) (rest : List ℕ) (hmain : s.main = .allocating req (left + 1))
      (hfree : s.pool.free = x :: rest) :
      MainStep s { s with
        pool := s.pool.take x rest
        ngroups := update s.ngroups x req.ngroups
        main := .marking req left 0 }
  | mark (req : Request) (left i x : ℕ) (hmain : s.main = .marking req left i)
      (hx : s.pool.held = some x) (hi : i < req.ngroups) :
      MainStep s ((s.store x i .INUSE).gotoMain (.marking req left (i + 1)))
  /-- `push_back`, and the link from the operation's last element -/
  | handOut (req : Request) (left i x : ℕ) (hmain : s.main = .marking req left i)
      (hx : s.pool.held = some x) (hi : req.ngroups ≤ i) :
      MainStep s { s with
        pool := s.pool.handOut x req.op
        next := link s.next (s.elems req.op) x
        elems := update s.elems req.op (s.elems req.op ++ [x])
        main := .allocating req left }
  | endAlloc (req : Request) (hmain : s.main = .allocating req 0) : MainStep s (s.gotoMain .idle)

/-- The host side of element `x` of operation `o`. -/
inductive HostStep (s : Elems) (o x : ℕ) : Elems → Prop
  | begin (v : ElemStatus) (hhost : s.host (o, x) = .held) :
      HostStep s o x (s.gotoHost o x (.storing v 0))
  | store (v : ElemStatus) (i : ℕ) (hhost : s.host (o, x) = .storing v i) (hi : i < s.ngroups x) :
      HostStep s o x ((s.store x i v).gotoHost o x (.storing v (i + 1)))
  | stored (v : ElemStatus) (i : ℕ) (hhost : s.host (o, x) = .storing v i) (hi : s.ngroups x ≤ i) :
      HostStep s o x (s.gotoHost o x .held)
  | destroy (hhost : s.host (o, x) = .held) : HostStep s o x (s.gotoHost o x (.scanning 0))
  /-- a revoked element is left to the kernel -/
  | scan (i : ℕ) (hhost : s.host (o, x) = .scanning i) (hi : i < s.ngroups x) :
      HostStep s o x (s.gotoHost o x
        (if s.status (x, i) = .REVOKED then .released else .scanning (i + 1)))
  | scanned (i : ℕ) (hhost : s.host (o, x) = .scanning i) (hi : s.ngroups x ≤ i) :
      HostStep s o x (s.gotoHost o x (.resetting 0))
  | reset (i : ℕ) (hhost : s.host (o, x) = .resetting i) (hi : i < s.ngroups x) :
      HostStep s o x ((s.store x i .RESET).gotoHost o x (.resetting (i + 1)))
  | freed (i : ℕ) (hhost : s.host (o, x) = .resetting i) (hi : s.ngroups x ≤ i) :
      HostStep s o x (s.gotoHost o x .released)

/-- Block `g` of the kernel of operation `o`. -/
inductive BlockStep (s : Elems) (o g : ℕ) : Elems → Prop
  /-- revoked, not for this block, or an unassigned `aborted` -/
  | skip (x : ℕ) (hblock : s.block (o, g) = .waiting x)
      (hval : s.status (x, g) = .POSTED ∨ s.status (x, g) = .REVOKED) :
      BlockStep s o g (s.gotoBlock o g (.advancing x))
  | enter (x : ℕ) (hblock : s.block (o, g) = .waiting x) (hval : s.status (x, g) = .POSTED)
      (hg : g < s.ngroups x) : BlockStep s o g (s.gotoBlock o g (.working x))
  | work (x : ℕ) (hblock : s.block (o, g) = .working x) :
      BlockStep s o g
        ((if (kernel o).complete then s.store x g .DONE else s).gotoBlock o g (.advancing x))
  | advance (x : ℕ) (hblock : s.block (o, g) = .advancing x) :
      BlockStep s o g (s.gotoBlock o g
        (match s.next x, (s.elems o).head? with
          | some y, _ => .waiting y
          | none, some y => .loading y
          | none, none => .exited))
  | load (x : ℕ) (hblock : s.block (o, g) = .loading x) :
      BlockStep s o g (s.gotoBlock o g
        (if (kernel o).free = true ∨ s.status (x, g) = .REVOKED then .freeing x else .leaving x))
  | free (x : ℕ) (hblock : s.block (o, g) = .freeing x) :
      BlockStep s o g ((s.store x g .RESET).gotoBlock o g (.leaving x))
  | leave (x : ℕ) (hblock : s.block (o, g) = .leaving x) :
      BlockStep s o g (s.gotoBlock o g
        (match s.next x with
          | some y => .loading y
          | none => .exited))

inductive Step (s : Elems) : Op → Elems → Prop
  | call (req : Option Request) (hmain : s.main = .idle)
      (hreq : ∀ q, req = some q → s.stage q.op = .building ∧ 1 ≤ q.ngroups ∧
        q.ngroups ≤ CTRAN_ALGO_MAX_THREAD_BLOCKS) :
      Step s (.call req) (s.gotoMain
        (match req with
          | some q => if s.pool.free.length < q.numElems then .reclaiming req 0 0
            else .allocating q q.numElems
          | none => .reclaiming none 0 0))
  | main {s' : Elems} (h : s.MainStep s') : Step s .main s'
  | launch (o x : ℕ) (hmain : s.main = .idle) (hstage : s.stage o = .building)
      (hx : (s.elems o).head? = some x) :
      Step s (.launch o) { s with
        stage := update s.stage o .launched
        block := fun b => if b.1 = o then .waiting x else s.block b }
  | abandon (o : ℕ) (hmain : s.main = .idle) (hstage : s.stage o = .building) :
      Step s (.abandon o) { s with stage := update s.stage o .abandoned }
  | host (o x : ℕ) (hx : x ∈ s.elems o) (hstage : s.stage o ≠ .building) {s' : Elems}
      (h : s.HostStep o x s') : Step s (.host o x) s'
  | block (o g : ℕ) (hg : g < (kernel o).gridDim) (hstage : s.stage o = .launched) {s' : Elems}
      (h : s.BlockStep kernel o g s') : Step s (.block o g) s'

/-- The states of the runs whose steps all meet a condition. -/
inductive Reachable (capacity : ℕ) (cond : Elems → Op → Prop) : Elems → Prop
  | init : Reachable capacity cond (init capacity)
  | step {s s' : Elems} {op : Op} (h : Reachable capacity cond s) (hstep : s.Step kernel op s')
      (hop : cond s op) : Reachable capacity cond s'

/-- A block of the operation's kernel has not left the list. -/
def Walked (s : Elems) (o : ℕ) : Prop :=
  s.stage o = .launched ∧ ∃ g < (kernel o).gridDim, s.block (o, g) ≠ .exited

/-- The operation may still write the element or read it. -/
def Live (s : Elems) (o x : ℕ) : Prop :=
  x ∈ s.elems o ∧ (s.host (o, x) ≠ .released ∨ s.Walked kernel o)

/-- An element belongs to one operation. -/
structure Sound (capacity : ℕ) (s : Elems) : Prop where
  nodup : s.pool.all.Nodup
  lists : ∀ x, x < capacity ↔ x ∈ s.pool.free ∨ s.pool.held = some x ∨ x ∈ s.pool.inuse
  popped : ∀ x, x ∈ s.pool.free ∨ s.pool.held = some x → ∀ o, ¬s.Live kernel o x
  owned : ∀ o x, s.Live kernel o x → s.pool.owner x = some o
  walk : ∀ o, s.Walked kernel o → ∀ x ∈ s.elems o, ∀ y,
    Relation.ReflTransGen (fun a b => s.next a = some b) x y → s.Live kernel o y
  cursor : ∀ o g x, s.stage o = .launched → g < (kernel o).gridDim →
    (s.block (o, g)).cursor = some x → s.Live kernel o x

/-- The element that reclaim takes has no user left. -/
def Meets (s : Elems) : Op → Prop
  | .main => ∀ req k i x, s.main = .reclaiming req k i → s.pool.inuse[k]? = some x →
      s.ngroups x ≤ i → ∀ o, x ∈ s.elems o → s.host (o, x) = .released ∧
        (s.stage o = .launched → ∀ g < (kernel o).gridDim, s.block (o, g) = .exited)
  | _ => True

end Elems

end TorchComms.Gpe.ElemPool
