import TorchComms.Foundation.Loop

/-! # Bootstrap sockets

`connect`, `send` and `recv` retry system calls that may return anything. A call that fails does so
with a code of `errno`, one that transfers tells how many bytes it moved.
-/
namespace TorchComms.Bootstrap
open Foundation

inductive Errno
  | enetdown | eproto | enoprotoopt | ehostdown | enonet | ehostunreach | eopnotsupp | enetunreach
  | eintr | econnrefused | einprogress | etimedout
  | eisconn | eacces | eagain
  | other (code : ℕ)
  deriving DecidableEq

/-- The same number on Linux. -/
abbrev Errno.ewouldblock : Errno := .eagain

def shouldRetry : Errno → Bool
  | .enetdown | .eproto | .enoprotoopt | .ehostdown | .enonet | .ehostunreach | .eopnotsupp
  | .enetunreach | .eintr | .econnrefused | .einprogress | .etimedout => true
  | _ => false

/-! ## Connecting -/

/-- What the calls before the first `::connect` return, true for success. -/
structure Setup where
  socket : Bool := true
  sndbuf : Bool := true
  rcvbuf : Bool := true
  getfl : Bool := true
  setfl : Bool := true
  nodelay : Bool := true
  bindtodevice : Bool := true
  deriving DecidableEq

def check (ok : Bool) (what : String) : Except String Unit :=
  if ok then .ok () else .error what

def prepareSocket (s : Setup) : Except String Unit := do
  check s.sndbuf "Failed to set socket send buffer size"
  check s.rcvbuf "Failed to set socket receive buffer size"
  check s.getfl "Failed to get socket flags"
  check s.setfl "Failed to set socket to non-blocking mode"
  check s.nodelay "Failed to set TCP_NODELAY"

/-- The part of `connect` before its loop, which throws. -/
def createSocket (ifName : String) (s : Setup) : Except String Unit := do
  check s.socket "Failed to create socket"
  prepareSocket s
  if ifName.isEmpty then .ok ()
  else check s.bindtodevice ("Failed to bind socket to interface " ++ ifName)

/-- One attempt, with what `::connect` returned. The code of a failed `close` hides the one that
ended the loop. -/
def connectTurn (numRetries : ℕ) (close : Except Errno Unit) (retryCount : ℕ) :
    Except Errno Unit → Turn ℕ (Option Errno)
  | .ok () => .stop none
  | .error e =>
    if !shouldRetry e then .stop none
    else if retryCount ≥ numRetries then
      .stop (some (match close with | .error e' => e' | .ok () => e))
    else .goOn (retryCount + 1)

structure ConnectCall where
  ifName : String
  numRetries : ℕ
  setup : Setup
  close : Except Errno Unit

inductive ConnectEnd
  | threw (what : String)
  | returned (code : Option Errno) (attempts : ℕ)

/-- `none` is the return value 0. -/
def Connects (c : ConnectCall) (answers : ℕ → Except Errno Unit) : ConnectEnd → Prop
  | .threw what => createSocket c.ifName c.setup = .error what
  | .returned code attempts =>
    createSocket c.ifName c.setup = .ok () ∧
      ∃ n, attempts = n + 1 ∧ Returns (connectTurn c.numRetries c.close) 0 answers code n

/-! ## Transferring -/

/-- The bytes transferred so far, and the positions of the buffer they were at, in order. -/
structure Transfer where
  total : ℕ := 0
  placed : List ℕ := []
  deriving DecidableEq

def Transfer.move (n : ℕ) (t : Transfer) : Transfer where
  total := t.total + n
  placed := t.placed ++ List.range' t.total n

/-- The condition at the end of the loop's body. -/
def again (len : ℕ) (t : Transfer) : Turn Transfer (Option Errno × Transfer) :=
  if t.total < len then .goOn t else .stop (none, t)

def Fatal (e : Errno) : Prop := e ≠ .eintr ∧ e ≠ .ewouldblock ∧ e ≠ .eagain
  deriving Decidable

/-- One turn of `send` and of `recv`. A call moves no more than it is asked for. -/
def transferTurn (len : ℕ) (t : Transfer) :
    Except Errno ℕ → Turn Transfer (Option Errno × Transfer)
  | .error e => if Fatal e then .stop (some e, t) else again len t
  | .ok n => again len (t.move (min n (len - t.total)))

def Sends (len : ℕ) (answers : ℕ → Except Errno ℕ) (code : Option Errno) (t : Transfer) : Prop :=
  ∃ n, Returns (transferTurn len) {} answers (code, t) n

def Recvs (len : ℕ) (answers : ℕ → Except Errno ℕ) (code : Option Errno) (t : Transfer) : Prop :=
  ∃ n, Returns (transferTurn len) {} answers (code, t) n

/-! ## Accepting -/

/-- What a peer does once its connection is accepted: the answers to `::recv`, and the `int` that
its first four bytes make. -/
structure Peer where
  answers : ℕ → Except Errno ℕ
  peerRank : ℤ

/-- Without a communicator there is no upper bound. -/
def checkValidPeer (nRanks : Option ℤ) (peerRank : ℤ) : Bool :=
  !(peerRank < 0 || nRanks.any fun n => n ≤ peerRank)

/-- The ranks in `rankToSocket`. -/
def updateSocket (rankToSocket : List ℤ) (peerRank : ℤ) : Option (List ℤ) :=
  if peerRank ∈ rankToSocket then none else some (peerRank :: rankToSocket)

/-- The body of the accept loop after a `recv` that returned 0; `none` is an exception, which ends
the process. -/
def storeSocket (nRanks : Option ℤ) (rankToSocket : List ℤ) (peerRank : ℤ) : Option (List ℤ) :=
  if checkValidPeer nRanks peerRank then updateSocket rankToSocket peerRank else none

/-- `sizeof(int)`. -/
def sizeofInt : ℕ := 4

/-- The accept thread has served these peers and is back in `accept`. -/
inductive Accepts (nRanks : Option ℤ) : List ℤ → List Peer → List ℤ → Prop
  | listening {rankToSocket : List ℤ} : Accepts nRanks rankToSocket [] rankToSocket
  | accepted {rankToSocket stored after : List ℤ} {peer : Peer} {peers : List Peer} {t : Transfer}
      (hrecv : Recvs sizeofInt peer.answers none t)
      (hstore : storeSocket nRanks rankToSocket peer.peerRank = some stored)
      (hrest : Accepts nRanks stored peers after) :
      Accepts nRanks rankToSocket (peer :: peers) after

end TorchComms.Bootstrap
