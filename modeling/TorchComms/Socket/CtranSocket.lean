import Mathlib.Data.List.Basic

/-! # The socket backend

Two ranks and the TCP connection between them. The smaller rank connects at its first operation,
the listen thread of the larger one accepts later. Operations issued before are parked and replayed
by `progress`. Each direction of the connection is a queue of bytes.
-/
namespace TorchComms.Socket

/-- The bytes of a control message, `size` of them, with an `int` in front. -/
structure ControlMsg (size : ℕ) where
  bytes : List UInt8
  length_bytes : bytes.length = size
  four_le : 4 ≤ size
  deriving DecidableEq

variable {size : ℕ}

/-- The field `type`. -/
def ControlMsg.type (m : ControlMsg size) : ℕ :=
  (m.bytes.take 4).foldr (fun b n => b.toNat + 256 * n) 0

/-- What a `recv` of some bytes leaves in a buffer. -/
def ControlMsg.overlay (m : ControlMsg size) (bytes : List UInt8) (h : bytes.length ≤ size) :
    ControlMsg size where
  bytes := bytes ++ m.bytes.drop bytes.length
  length_bytes := by
    rw [List.length_append, List.length_drop, m.length_bytes]
    exact Nat.add_sub_cancel' h
  four_le := m.four_le

/-- Requests are numbered for each end and kind, in the order of the calls. -/
inductive SockPendingOp (size : ℕ)
  | isendCtrl (req : ℕ) (msg : ControlMsg size)
  | irecvCtrl (req : ℕ)
  deriving DecidableEq

/-- One end: what `CtranSocket` keeps for its peer, the bytes sent that the peer has not read, and
the calls and completions so far. -/
structure CtranSocket (size : ℕ) where
  sock : Bool := false
  pendingOps : List (SockPendingOp size) := []
  postedOps_ : List ℕ := []
  unexpMsgs_ : List (ControlMsg size) := []
  stream : List UInt8 := []
  isends : List (ControlMsg size) := []
  irecvs : ℕ := 0
  sends : List ℕ := []
  receives : List (ℕ × ControlMsg size) := []
  callbacks : List (ControlMsg size) := []
  failed : Bool := false
  deriving DecidableEq

namespace CtranSocket

/-- The operation is parked without a connection, and behind other parked operations. -/
def addToPendingOpsIfRequired (op : SockPendingOp size) (e : CtranSocket size) :
    Option (CtranSocket size) :=
  if !e.sock || !e.pendingOps.isEmpty then
    some { e with pendingOps := e.pendingOps ++ [op] }
  else none

def send (req : ℕ) (msg : ControlMsg size) (e : CtranSocket size) : CtranSocket size :=
  { e with stream := e.stream ++ msg.bytes, sends := e.sends ++ [req] }

def postRecvOp (req : ℕ) (e : CtranSocket size) : CtranSocket size :=
  match e.unexpMsgs_ with
  | [] => { e with postedOps_ := e.postedOps_ ++ [req] }
  | msg :: rest => { e with unexpMsgs_ := rest, receives := e.receives ++ [(req, msg)] }

/-- What happens to an operation once it may be issued. -/
def issue (e : CtranSocket size) : SockPendingOp size → CtranSocket size
  | .isendCtrl req msg => e.send req msg
  | .irecvCtrl req => e.postRecvOp req

def progressPendingOps (e : CtranSocket size) : CtranSocket size :=
  if e.sock then e.pendingOps.foldl issue { e with pendingOps := [] } else e

/-- What `progressInternal` does with a message it has read. -/
def handle (hasCb : ℕ → Bool) (msg : ControlMsg size) (e : CtranSocket size) : CtranSocket size :=
  if hasCb msg.type then { e with callbacks := e.callbacks ++ [msg] }
  else
    match e.postedOps_ with
    | [] => { e with unexpMsgs_ := e.unexpMsgs_ ++ [msg] }
    | req :: rest => { e with postedOps_ := rest, receives := e.receives ++ [(req, msg)] }

theorem postRecvOp_eq (req : ℕ) (e : CtranSocket size) :
    e.postRecvOp req = { e with
      postedOps_ := (e.postRecvOp req).postedOps_
      unexpMsgs_ := (e.postRecvOp req).unexpMsgs_
      receives := (e.postRecvOp req).receives } := by
  unfold postRecvOp
  split <;> rfl

theorem handle_eq (hasCb : ℕ → Bool) (msg : ControlMsg size) (e : CtranSocket size) :
    e.handle hasCb msg = { e with
      callbacks := (e.handle hasCb msg).callbacks
      postedOps_ := (e.handle hasCb msg).postedOps_
      unexpMsgs_ := (e.handle hasCb msg).unexpMsgs_
      receives := (e.handle hasCb msg).receives } := by
  unfold handle
  split
  · rfl
  · split <;> rfl

end CtranSocket

inductive Side
  | smaller
  | larger
  deriving DecidableEq, Repr

def Side.peer : Side → Side
  | .smaller => .larger
  | .larger => .smaller

@[simp] theorem Side.peer_peer (a : Side) : a.peer.peer = a := by
  cases a <;> rfl

@[simp] theorem Side.peer_ne (a : Side) : a.peer ≠ a := by
  cases a <;> nofun

namespace CtranSocket

/-- Only the smaller rank connects; the other one waits for its listen thread. -/
def bootstrapConnect (a : Side) (e : CtranSocket size) : CtranSocket size :=
  if a = .smaller ∧ e.sock = false then { e with sock := true } else e

def isendCtrlMsgImpl (a : Side) (msg : ControlMsg size) (e : CtranSocket size) :
    CtranSocket size :=
  let req := e.isends.length
  let e := { e.bootstrapConnect a with isends := e.isends ++ [msg] }
  (e.addToPendingOpsIfRequired (.isendCtrl req msg)).getD (e.send req msg)

def irecvCtrlMsgImpl (a : Side) (e : CtranSocket size) : CtranSocket size :=
  let req := e.irecvs
  let e := { e.bootstrapConnect a with irecvs := e.irecvs + 1 }
  (e.addToPendingOpsIfRequired (.irecvCtrl req)).getD (e.postRecvOp req)

end CtranSocket

/-- Both ends of the connection. -/
abbrev Conn (size : ℕ) := Side → CtranSocket size

def Conn.initial : Conn size := fun _ => {}

/-- The calls of the two ranks and what the network does. `recv` is one `recvAsync` into a buffer
with the bytes of `blank`, `n` the number of bytes it returns. -/
inductive Event (size : ℕ)
  | isendCtrlMsg (a : Side) (msg : ControlMsg size)
  | irecvCtrlMsg (a : Side)
  | preConnect
  | accept
  | progressPendingOps (a : Side)
  | recv (a : Side) (n : ℕ) (blank : ControlMsg size)
  | wouldBlock (a : Side)
  | interrupted (a : Side)
  deriving DecidableEq

/-- The calls made of one rank do not overlap, only the listen thread runs beside them. -/
inductive Step (hasCb : Side → ℕ → Bool) (s : Conn size) : Event size → Conn size → Prop
  | isendCtrlMsg (a : Side) (msg : ControlMsg size) :
      Step hasCb s (.isendCtrlMsg a msg) (Function.update s a ((s a).isendCtrlMsgImpl a msg))
  | irecvCtrlMsg (a : Side) :
      Step hasCb s (.irecvCtrlMsg a) (Function.update s a ((s a).irecvCtrlMsgImpl a))
  | preConnect :
      Step hasCb s .preConnect
        (Function.update s .smaller ((s .smaller).bootstrapConnect .smaller))
  | accept (h : (s .smaller).sock = true) :
      Step hasCb s .accept (Function.update s .larger { s .larger with sock := true })
  | progressPendingOps (a : Side) :
      Step hasCb s (.progressPendingOps a) (Function.update s a (s a).progressPendingOps)
  | recv (a : Side) (n : ℕ) (blank : ControlMsg size) (hsock : (s a).sock = true) (hn : 0 < n)
      (hstream : n ≤ (s a.peer).stream.length) (hsize : n ≤ size) :
      Step hasCb s (.recv a n blank)
        (Function.update
          (Function.update s a.peer
            { s a.peer with stream := (s a.peer).stream.drop n }) a
          ((s a).handle (hasCb a)
            (blank.overlay ((s a.peer).stream.take n)
              (Nat.le_trans (List.length_take_le n _) hsize))))
  | wouldBlock (a : Side) (hsock : (s a).sock = true) :
      Step hasCb s (.wouldBlock a) (Function.update s a { s a with failed := true })
  | interrupted (a : Side) :
      Step hasCb s (.interrupted a) (Function.update s a { s a with failed := true })

/-- The states of runs whose events all meet a condition. -/
inductive Reachable (hasCb : Side → ℕ → Bool) (meets : Event size → Prop) : Conn size → Prop
  | initial : Reachable hasCb meets Conn.initial
  | step {s s' : Conn size} {e : Event size} (h : Reachable hasCb meets s)
      (hstep : Step hasCb s e s') (hmeets : meets e) : Reachable hasCb meets s'

end TorchComms.Socket
