import TorchComms.Socket.CtranSocket
import TorchComms.Foundation.Cutting
import TorchComms.Foundation.Rendezvous

/-! # Delivery of control messages over the socket

In each direction the messages of all calls are, from the oldest to the newest, those the peer has
read, those in the byte stream and those parked. What the peer has read without a callback and the
receives it has issued are two streams matched in order.
-/
namespace TorchComms.Socket

open Foundation

variable {size : ℕ}

/-! ### One end -/

def SockPendingOp.isend? : SockPendingOp size → Option (ℕ × ControlMsg size)
  | .isendCtrl req msg => some (req, msg)
  | .irecvCtrl _ => none

def SockPendingOp.irecv? : SockPendingOp size → Option ℕ
  | .isendCtrl _ _ => none
  | .irecvCtrl req => some req

/-- The bytes of messages one behind the other. -/
def bytesOf (msgs : List (ControlMsg size)) : List UInt8 := msgs.flatMap ControlMsg.bytes

@[simp] theorem bytesOf_nil : bytesOf ([] : List (ControlMsg size)) = [] := rfl

@[simp] theorem bytesOf_append (l l' : List (ControlMsg size)) :
    bytesOf (l ++ l') = bytesOf l ++ bytesOf l' := List.flatMap_append

@[simp] theorem bytesOf_singleton (m : ControlMsg size) : bytesOf [m] = m.bytes :=
  List.flatMap_singleton ..

theorem exists_of_bytesOf {msgs : List (ControlMsg size)} (hsize : 0 < size)
    (h : size ≤ (bytesOf msgs).length) :
    ∃ m rest, msgs = m :: rest ∧ (bytesOf msgs).take size = m.bytes ∧
      (bytesOf msgs).drop size = bytesOf rest := by
  cases msgs with
  | nil =>
    rw [bytesOf_nil, List.length_nil] at h
    omega
  | cons m rest =>
    have hlen := m.length_bytes
    refine ⟨m, rest, rfl, ?_, ?_⟩
    · exact List.take_left' hlen
    · exact List.drop_left' hlen

theorem overlay_whole (blank m : ControlMsg size) (h : m.bytes.length ≤ size) :
    blank.overlay m.bytes h = m := by
  cases m with
  | mk bytes hbytes =>
    simp [ControlMsg.overlay, hbytes, ← blank.length_bytes]

/-- With `ops` still to be issued, `gone` are the messages that went into the stream. -/
structure Sending (e : CtranSocket size) (ops : List (SockPendingOp size))
    (gone : List (ControlMsg size)) : Prop where
  isends : e.isends = gone ++ (ops.filterMap SockPendingOp.isend?).map Prod.snd
  sends : e.sends = List.range gone.length
  parked : (ops.filterMap SockPendingOp.isend?).map Prod.fst =
    List.range' gone.length (ops.filterMap SockPendingOp.isend?).length

/-- With `ops` still to be issued, `active` receives were, and `msgs` are the messages read. -/
structure Receiving (hasCb : ℕ → Bool) (e : CtranSocket size) (ops : List (SockPendingOp size))
    (msgs : List (ControlMsg size)) (active : ℕ) : Prop where
  irecvs : e.irecvs = active + (ops.filterMap SockPendingOp.irecv?).length
  parked : ops.filterMap SockPendingOp.irecv? =
    List.range' active (ops.filterMap SockPendingOp.irecv?).length
  callbacks : e.callbacks = msgs.filter fun m => hasCb m.type
  matched : Rendezvous (fun m req => (req, m)) (msgs.filter fun m => !hasCb m.type)
    (List.range active) e.unexpMsgs_ e.postedOps_ e.receives

variable {hasCb : ℕ → Bool} {e : CtranSocket size} {op : SockPendingOp size}
  {ops : List (SockPendingOp size)} {gone msgs : List (ControlMsg size)} {active : ℕ} {a : Side}

theorem Sending.issue (h : Sending e (op :: ops) gone) :
    ∃ new, Sending (e.issue op) ops (gone ++ new) ∧
      (e.issue op).stream = e.stream ++ bytesOf new := by
  cases op with
  | isendCtrl req msg =>
    have hparked := h.parked
    simp only [List.filterMap_cons, SockPendingOp.isend?, List.map_cons, List.length_cons,
      List.range'_succ, List.cons.injEq] at hparked
    obtain ⟨hreq, hrest⟩ := hparked
    refine ⟨[msg], ⟨?_, ?_, ?_⟩, ?_⟩
    · rw [List.append_assoc]
      exact h.isends
    · rw [List.length_append, List.length_singleton, List.range_succ, ← h.sends, ← hreq]
      rfl
    · rw [List.length_append, List.length_singleton]
      exact hrest
    · rw [bytesOf_singleton]
      rfl
  | irecvCtrl req =>
    refine ⟨[], ?_⟩
    rw [CtranSocket.issue, CtranSocket.postRecvOp_eq, List.append_nil, bytesOf_nil,
      List.append_nil]
    exact ⟨⟨h.isends, h.sends, h.parked⟩, rfl⟩

theorem Receiving.issue (h : Receiving hasCb e (op :: ops) msgs active) :
    ∃ active', Receiving hasCb (e.issue op) ops msgs active' := by
  cases op with
  | isendCtrl req msg => exact ⟨active, h.irecvs, h.parked, h.callbacks, h.matched⟩
  | irecvCtrl req =>
    have hparked := h.parked
    simp only [List.filterMap_cons, SockPendingOp.irecv?, List.length_cons,
      List.range'_succ, List.cons.injEq] at hparked
    obtain ⟨rfl, hrest⟩ := hparked
    have hirecvs : e.irecvs = req + 1 + (ops.filterMap SockPendingOp.irecv?).length := by
      have := h.irecvs
      simp only [List.filterMap_cons, SockPendingOp.irecv?, List.length_cons] at this
      omega
    refine ⟨req + 1, ?_⟩
    have hm := h.matched
    rw [CtranSocket.issue, CtranSocket.postRecvOp]
    cases hu : e.unexpMsgs_ with
    | nil =>
      rw [hu] at hm
      have hm' := (hm.swap.push_wait req).swap
      rw [← List.range_succ] at hm'
      exact ⟨hirecvs, hrest, h.callbacks, hm'⟩
    | cons msg rest =>
      rw [hu] at hm
      have hm' := (hm.swap.push_match req).swap
      rw [← List.range_succ] at hm'
      exact ⟨hirecvs, hrest, h.callbacks, hm'⟩

theorem Sending.issueAll (h : Sending e ops gone) :
    ∃ new, Sending (ops.foldl CtranSocket.issue e) [] (gone ++ new) ∧
      (ops.foldl CtranSocket.issue e).stream = e.stream ++ bytesOf new := by
  induction ops generalizing e gone with
  | nil =>
    refine ⟨[], ?_, ?_⟩
    · rwa [List.append_nil]
    · simp
  | cons op ops ih =>
    obtain ⟨new, hnew, hstream⟩ := h.issue
    obtain ⟨new', hnew', hstream'⟩ := ih hnew
    refine ⟨new ++ new', ?_, ?_⟩
    · rw [← List.append_assoc]
      exact hnew'
    · rw [List.foldl_cons, hstream', hstream, bytesOf_append, List.append_assoc]

theorem Receiving.issueAll (h : Receiving hasCb e ops msgs active) :
    ∃ active', Receiving hasCb (ops.foldl CtranSocket.issue e) [] msgs active' := by
  induction ops generalizing e active with
  | nil => exact ⟨active, h⟩
  | cons op ops ih =>
    obtain ⟨active', h'⟩ := h.issue
    exact ih h'

theorem Sending.parkSend (h : Sending e ops gone) (msg : ControlMsg size) :
    Sending { e with isends := e.isends ++ [msg] } (ops ++ [.isendCtrl e.isends.length msg])
      gone where
  isends := by simp [h.isends, SockPendingOp.isend?]
  sends := h.sends
  parked := by
    have hlen : e.isends.length =
        gone.length + (ops.filterMap SockPendingOp.isend?).length := by
      simp [h.isends]
    simp [SockPendingOp.isend?, h.parked, List.range'_concat, hlen]

theorem Sending.parkRecv (h : Sending e ops gone) (req : ℕ) :
    Sending e (ops ++ [.irecvCtrl req]) gone where
  isends := by simpa [List.filterMap_cons, SockPendingOp.isend?] using h.isends
  sends := h.sends
  parked := by simpa [List.filterMap_cons, SockPendingOp.isend?] using h.parked

section

variable (h : Receiving hasCb e ops msgs active)
include h

theorem Receiving.parkSend (req : ℕ)
    (msg : ControlMsg size) : Receiving hasCb e (ops ++ [.isendCtrl req msg]) msgs active where
  irecvs := by simpa [List.filterMap_cons, SockPendingOp.irecv?] using h.irecvs
  parked := by simpa [List.filterMap_cons, SockPendingOp.irecv?] using h.parked
  __ := h

theorem Receiving.parkRecv :
    Receiving hasCb { e with irecvs := e.irecvs + 1 } (ops ++ [.irecvCtrl e.irecvs]) msgs
      active where
  irecvs := by
    simp [SockPendingOp.irecv?, h.irecvs]
    rfl
  parked := by simp [SockPendingOp.irecv?, List.range'_concat, h.irecvs, ← h.parked]
  __ := h

theorem Receiving.handle (m : ControlMsg size) :
    Receiving hasCb (e.handle hasCb m) ops (msgs ++ [m]) active := by
  have hm := h.matched
  unfold CtranSocket.handle
  by_cases hcb : hasCb m.type = true
  · rw [if_pos hcb]
    refine ⟨h.irecvs, h.parked, ?_, ?_⟩
    · rw [List.filter_append, ← h.callbacks]
      simp [hcb]
    · simpa [List.filter_append, hcb] using hm
  · rw [if_neg hcb]
    have hplain : (msgs ++ [m]).filter (fun m => !hasCb m.type) =
        msgs.filter (fun m => !hasCb m.type) ++ [m] := by
      simp [List.filter_append, hcb]
    have hcalled : e.callbacks = (msgs ++ [m]).filter fun m => hasCb m.type := by
      simp [List.filter_append, hcb, h.callbacks]
    cases hp : e.postedOps_ with
    | nil =>
      rw [hp] at hm
      refine ⟨h.irecvs, h.parked, hcalled, ?_⟩
      rw [hplain]
      exact hm.push_wait m
    | cons req rest =>
      rw [hp] at hm
      refine ⟨h.irecvs, h.parked, hcalled, ?_⟩
      rw [hplain]
      exact hm.push_match m

end

/-! ### The calls of one rank -/

/-- What every call made of one rank keeps. -/
structure Keeps (hasCb : ℕ → Bool) (e e' : CtranSocket size) : Prop where
  sending : ∀ {gone}, Sending e e.pendingOps gone →
    ∃ new, Sending e' e'.pendingOps (gone ++ new) ∧ e'.stream = e.stream ++ bytesOf new
  receiving : ∀ {msgs active}, Receiving hasCb e e.pendingOps msgs active →
    ∃ active', Receiving hasCb e' e'.pendingOps msgs active'
  failed : e'.failed = e.failed

theorem keeps_sock (b : Bool) : Keeps hasCb e { e with sock := b } where
  sending h := ⟨[], by
    rw [List.append_nil]
    exact ⟨h.isends, h.sends, h.parked⟩, (List.append_nil _).symm⟩
  receiving h := ⟨_, h.irecvs, h.parked, h.callbacks, h.matched⟩
  failed := rfl

theorem issue_pendingOps (e : CtranSocket size) (op : SockPendingOp size) :
    (e.issue op).pendingOps = e.pendingOps := by
  cases op with
  | isendCtrl req msg => rfl
  | irecvCtrl req => rw [CtranSocket.issue, CtranSocket.postRecvOp_eq]

theorem issue_failed (e : CtranSocket size) (op : SockPendingOp size) :
    (e.issue op).failed = e.failed := by
  cases op with
  | isendCtrl req msg => rfl
  | irecvCtrl req => rw [CtranSocket.issue, CtranSocket.postRecvOp_eq]

theorem issueAll_pendingOps (e : CtranSocket size) (ops : List (SockPendingOp size)) :
    (ops.foldl CtranSocket.issue e).pendingOps = e.pendingOps := by
  induction ops generalizing e with
  | nil => rfl
  | cons op ops ih => rw [List.foldl_cons, ih, issue_pendingOps]

theorem issueAll_failed (e : CtranSocket size) (ops : List (SockPendingOp size)) :
    (ops.foldl CtranSocket.issue e).failed = e.failed := by
  induction ops generalizing e with
  | nil => rfl
  | cons op ops ih => rw [List.foldl_cons, ih, issue_failed]

theorem keeps_progressPendingOps (e : CtranSocket size) : Keeps hasCb e e.progressPendingOps := by
  unfold CtranSocket.progressPendingOps
  by_cases hs : e.sock = true
  · rw [if_pos hs]
    refine ⟨fun {gone} h => ?_, fun {msgs active} h => ?_, issueAll_failed _ _⟩
    · rw [issueAll_pendingOps]
      have h0 : Sending { e with pendingOps := [] } e.pendingOps gone :=
        ⟨h.isends, h.sends, h.parked⟩
      exact h0.issueAll
    · rw [issueAll_pendingOps]
      have h0 : Receiving hasCb { e with pendingOps := [] } e.pendingOps msgs active :=
        ⟨h.irecvs, h.parked, h.callbacks, h.matched⟩
      exact h0.issueAll
  · rw [if_neg hs]
    exact keeps_sock e.sock

/-- An operation that is parked or issued at once. -/
def submit (e : CtranSocket size) (op : SockPendingOp size) : CtranSocket size :=
  (e.addToPendingOpsIfRequired op).getD (e.issue op)

theorem Sending.submit (h : Sending e (e.pendingOps ++ [op]) gone) :
    ∃ new, Sending (submit e op) (submit e op).pendingOps (gone ++ new) ∧
      (submit e op).stream = e.stream ++ bytesOf new := by
  unfold Socket.submit CtranSocket.addToPendingOpsIfRequired
  by_cases hpark : (!e.sock || !e.pendingOps.isEmpty) = true
  · rw [if_pos hpark]
    refine ⟨[], ?_, (List.append_nil _).symm⟩
    rw [List.append_nil]
    exact ⟨h.isends, h.sends, h.parked⟩
  · rw [if_neg hpark]
    have hnil : e.pendingOps = [] := by simp_all
    rw [hnil] at h
    rw [Option.getD_none, issue_pendingOps, hnil]
    exact h.issue

theorem Receiving.submit (h : Receiving hasCb e (e.pendingOps ++ [op]) msgs active) :
    ∃ active', Receiving hasCb (submit e op) (submit e op).pendingOps msgs active' := by
  unfold Socket.submit CtranSocket.addToPendingOpsIfRequired
  by_cases hpark : (!e.sock || !e.pendingOps.isEmpty) = true
  · rw [if_pos hpark]
    exact ⟨active, h.irecvs, h.parked, h.callbacks, h.matched⟩
  · rw [if_neg hpark]
    have hnil : e.pendingOps = [] := by simp_all
    rw [hnil] at h
    rw [Option.getD_none, issue_pendingOps, hnil]
    exact h.issue

theorem submit_failed (e : CtranSocket size) (op : SockPendingOp size) :
    (submit e op).failed = e.failed := by
  unfold submit CtranSocket.addToPendingOpsIfRequired
  split
  · rfl
  · exact issue_failed e op

theorem bootstrapConnect_eq (a : Side) (e : CtranSocket size) :
    e.bootstrapConnect a = { e with sock := (e.bootstrapConnect a).sock } := by
  unfold CtranSocket.bootstrapConnect
  split <;> rfl

theorem keeps_bootstrapConnect (a : Side) (e : CtranSocket size) :
    Keeps hasCb e (e.bootstrapConnect a) := by
  rw [bootstrapConnect_eq]
  exact keeps_sock _

theorem keeps_isendCtrlMsg (a : Side) (msg : ControlMsg size) (e : CtranSocket size) :
    Keeps hasCb e (e.isendCtrlMsgImpl a msg) := by
  have heq : e.isendCtrlMsgImpl a msg =
      submit { e with sock := (e.bootstrapConnect a).sock, isends := e.isends ++ [msg] }
        (.isendCtrl e.isends.length msg) := by
    unfold CtranSocket.isendCtrlMsgImpl
    rw [bootstrapConnect_eq]
    rfl
  rw [heq]
  refine ⟨fun {gone} h => ?_, fun {msgs active} h => ?_, submit_failed _ _⟩
  · have h' := h.parkSend msg
    exact Sending.submit ⟨h'.isends, h'.sends, h'.parked⟩
  · have h' := h.parkSend e.isends.length msg
    exact Receiving.submit ⟨h'.irecvs, h'.parked, h'.callbacks, h'.matched⟩

theorem keeps_irecvCtrlMsg (a : Side) (e : CtranSocket size) :
    Keeps hasCb e (e.irecvCtrlMsgImpl a) := by
  have heq : e.irecvCtrlMsgImpl a =
      submit { e with sock := (e.bootstrapConnect a).sock, irecvs := e.irecvs + 1 }
        (.irecvCtrl e.irecvs) := by
    unfold CtranSocket.irecvCtrlMsgImpl
    rw [bootstrapConnect_eq]
    rfl
  rw [heq]
  refine ⟨fun {gone} h => ?_, fun {msgs active} h => ?_, submit_failed _ _⟩
  · have h' := h.parkRecv e.irecvs
    exact Sending.submit ⟨h'.isends, h'.sends, h'.parked⟩
  · have h' := h.parkRecv
    exact Receiving.submit ⟨h'.irecvs, h'.parked, h'.callbacks, h'.matched⟩

/-! ### Both directions -/

variable {cbs : Side → ℕ → Bool} {s s' : Conn size}

/-- What `a` has sent and what its peer has received of it. -/
def Carries (cbs : Side → ℕ → Bool) (s : Conn size) (a : Side) : Prop :=
  ∃ arrived inflight active,
    Sending (s a) (s a).pendingOps (arrived ++ inflight) ∧
    (s a).stream = bytesOf inflight ∧
    Receiving (cbs a.peer) (s a.peer) (s a.peer).pendingOps arrived active

structure Inv (cbs : Side → ℕ → Bool) (s : Conn size) : Prop where
  alive : ∀ a, (s a).failed = false
  carries : ∀ a, Carries cbs s a

theorem inv_initial : Inv cbs (Conn.initial : Conn size) where
  alive _ := rfl
  carries _ := ⟨[], [], 0, ⟨rfl, rfl, rfl⟩, rfl, ⟨rfl, rfl, rfl, Rendezvous.nil _⟩⟩

theorem Inv.call {e' : CtranSocket size} (h : Inv cbs s) (a : Side)
    (hkeeps : Keeps (cbs a) (s a) e') : Inv cbs (Function.update s a e') where
  alive b := by
    by_cases hb : b = a
    · rw [hb, Function.update_self, hkeeps.failed]
      exact h.alive a
    · rw [Function.update_of_ne hb]
      exact h.alive b
  carries b := by
    by_cases hb : b = a
    · subst hb
      obtain ⟨arrived, inflight, active, hsend, hstream, hrecv⟩ := h.carries b
      obtain ⟨new, hsend', hstream'⟩ := hkeeps.sending hsend
      refine ⟨arrived, inflight ++ new, active, ?_, ?_, ?_⟩
      · rw [Function.update_self, ← List.append_assoc]
        exact hsend'
      · rw [Function.update_self, hstream', hstream, bytesOf_append]
      · rw [Function.update_of_ne b.peer_ne]
        exact hrecv
    · have hpeer : b.peer = a := by
        cases a <;> cases b <;> first | rfl | exact absurd rfl hb
      subst hpeer
      obtain ⟨arrived, inflight, active, hsend, hstream, hrecv⟩ := h.carries b
      obtain ⟨active', hrecv'⟩ := hkeeps.receiving hrecv
      refine ⟨arrived, inflight, active', ?_, ?_, ?_⟩
      · rw [Function.update_of_ne hb]
        exact hsend
      · rw [Function.update_of_ne hb]
        exact hstream
      · rw [Function.update_self]
        exact hrecv'

theorem Inv.recv (h : Inv cbs s) (a : Side) {msg : ControlMsg size} {rest : List (ControlMsg size)}
    {arrived : List (ControlMsg size)} {active : ℕ}
    (hsend : Sending (s a.peer) (s a.peer).pendingOps (arrived ++ msg :: rest))
    (hrecv : Receiving (cbs a) (s a) (s a).pendingOps arrived active) :
    Inv cbs (Function.update
      (Function.update s a.peer { s a.peer with stream := bytesOf rest }) a
      ((s a).handle (cbs a) msg)) where
  alive b := by
    by_cases hb : b = a
    · rw [hb, Function.update_self, CtranSocket.handle_eq]
      exact h.alive a
    · have hpeer : b = a.peer := by
        cases a <;> cases b <;> first | rfl | exact absurd rfl hb
      rw [Function.update_of_ne hb, hpeer, Function.update_self]
      exact h.alive a.peer
  carries b := by
    by_cases hb : b = a
    · subst hb
      obtain ⟨arrived', inflight, active', hsend', hstream', hrecv'⟩ := h.carries b
      refine ⟨arrived', inflight, active', ?_, ?_, ?_⟩
      · rw [Function.update_self, CtranSocket.handle_eq]
        exact ⟨hsend'.isends, hsend'.sends, hsend'.parked⟩
      · rw [Function.update_self, CtranSocket.handle_eq]
        exact hstream'
      · rw [Function.update_of_ne b.peer_ne, Function.update_self]
        exact ⟨hrecv'.irecvs, hrecv'.parked, hrecv'.callbacks, hrecv'.matched⟩
    · have hpeer : b = a.peer := by
        cases a <;> cases b <;> first | rfl | exact absurd rfl hb
      subst hpeer
      refine ⟨arrived ++ [msg], rest, active, ?_, ?_, ?_⟩
      · rw [Function.update_of_ne hb, Function.update_self, List.append_assoc]
        exact ⟨hsend.isends, hsend.sends, hsend.parked⟩
      · rw [Function.update_of_ne hb, Function.update_self]
      · rw [Side.peer_peer, Function.update_self, CtranSocket.handle_eq]
        have hnew := hrecv.handle msg
        rw [CtranSocket.handle_eq] at hnew
        exact hnew

/-- Every `recv` returns a whole message, and neither it nor `poll` returns an error. -/
def Event.Whole : Event size → Prop
  | .recv _ n _ => n = size
  | .wouldBlock _ => False
  | .interrupted _ => False
  | _ => True

theorem Inv.step {ev : Event size} (h : Inv cbs s) (hstep : Step cbs s ev s')
    (hwhole : ev.Whole) : Inv cbs s' := by
  cases hstep with
  | isendCtrlMsg a msg => exact h.call a (keeps_isendCtrlMsg a msg _)
  | irecvCtrlMsg a => exact h.call a (keeps_irecvCtrlMsg a _)
  | preConnect => exact h.call .smaller (keeps_bootstrapConnect .smaller _)
  | accept _ => exact h.call .larger (keeps_sock true)
  | progressPendingOps a => exact h.call a (keeps_progressPendingOps _)
  | recv a n blank hsock hn hstream hsize =>
    have hfull : n = size := hwhole
    subst hfull
    obtain ⟨arrived, inflight, active, hsend, hbytes, hrecv⟩ := h.carries a.peer
    rw [Side.peer_peer] at hrecv
    rw [hbytes] at hstream
    obtain ⟨msg, rest, hmsgs, htake, hdrop⟩ := exists_of_bytesOf hn hstream
    have hmsg : blank.overlay ((s a.peer).stream.take n)
        (Nat.le_trans (List.length_take_le n _) hsize) = msg := by
      have hle := Nat.le_of_eq msg.length_bytes
      rw [← overlay_whole blank msg hle]
      congr 1
      rw [hbytes, htake]
    rw [hmsg, hbytes, hdrop]
    rw [hmsgs] at hsend
    exact h.recv a hsend hrecv
  | wouldBlock a hsock => exact hwhole.elim
  | interrupted a => exact hwhole.elim

theorem Reachable.inv (h : Reachable cbs Event.Whole s) : Inv cbs s := by
  induction h with
  | initial => exact inv_initial
  | step _ hstep hwhole ih => exact ih.step hstep hwhole

/-! ### Whole, once and in order -/

/-- What the sender `e` and the receiver `f` of one direction have done. -/
structure Delivers (hasCb : ℕ → Bool) (e f : CtranSocket size) : Prop where
  sends : e.sends <+: List.range e.isends.length
  receives : f.receives <+:
    (List.range f.irecvs).zip (e.isends.filter fun m => !hasCb m.type)
  callbacks : f.callbacks <+: e.isends.filter fun m => hasCb m.type
  settled : e.pendingOps = [] → f.pendingOps = [] → e.stream = [] →
    e.sends = List.range e.isends.length ∧
    f.receives = (List.range f.irecvs).zip (e.isends.filter fun m => !hasCb m.type) ∧
    f.callbacks = e.isends.filter fun m => hasCb m.type

/-- No call of `progress` has failed, and both directions deliver. -/
structure Sound (cbs : Side → ℕ → Bool) (s : Conn size) : Prop where
  alive : ∀ a, (s a).failed = false
  deliveries : ∀ a, Delivers (cbs a.peer) (s a) (s a.peer)

theorem Receiving.receives_eq (h : Receiving hasCb e ops msgs active) :
    e.receives = (List.range active).zip (msgs.filter fun m => !hasCb m.type) := by
  rw [h.matched.swap.out]
  rfl

theorem bytesOf_eq_nil {l : List (ControlMsg size)} (h : bytesOf l = []) : l = [] := by
  cases l with
  | nil => rfl
  | cons m rest =>
    have hm : m.bytes = [] := (List.append_eq_nil_iff.mp h).1
    have hlen := m.length_bytes
    have hfour := m.four_le
    rw [hm, List.length_nil] at hlen
    omega

theorem Carries.delivery {a : Side} (h : Carries cbs s a) :
    Delivers (cbs a.peer) (s a) (s a.peer) := by
  obtain ⟨arrived, inflight, active, hsend, hstream, hrecv⟩ := h
  have harrived : arrived <+: (s a).isends := by
    rw [hsend.isends, List.append_assoc]
    exact List.prefix_append _ _
  refine ⟨?_, ?_, ?_, ?_⟩
  · have hlen := congrArg List.length hsend.isends
    rw [List.length_append] at hlen
    rw [hsend.sends, hlen, List.range_add]
    exact List.prefix_append _ _
  · rw [hrecv.receives_eq]
    apply zip_prefix_zip
    · rw [hrecv.irecvs, List.range_add]
      exact List.prefix_append _ _
    · exact harrived.filter _
  · rw [hrecv.callbacks]
    exact harrived.filter _
  · intro hpend hpeer hempty
    have hinflight : inflight = [] := bytesOf_eq_nil (hstream ▸ hempty)
    have hisends := hsend.isends
    have hirecvs := hrecv.irecvs
    rw [hpend, hinflight] at hisends
    rw [hpeer] at hirecvs
    simp only [List.filterMap_nil, List.map_nil, List.append_nil] at hisends
    simp only [List.filterMap_nil, List.length_nil, Nat.add_zero] at hirecvs
    refine ⟨?_, ?_, ?_⟩
    · rw [hsend.sends, hinflight, List.append_nil, hisends]
    · rw [hrecv.receives_eq, hisends, hirecvs]
    · rw [hrecv.callbacks, hisends]

/-- In every run in which each `recv` returns a whole message, no `progress` fails, the messages
arrive whole, once and in order, and every request completes in its turn. -/
theorem control_messages_delivered (h : Reachable cbs Event.Whole s) : Sound cbs s :=
  ⟨h.inv.alive, fun a => (h.inv.carries a).delivery⟩

/-- A message of 208 bytes that are all equal. -/
def sample (b : UInt8) : ControlMsg 208 := ⟨List.replicate 208 b, List.length_replicate, by decide⟩

set_option maxRecDepth 4000 in
/-- A message that is sent and received before the connection is accepted. -/
theorem control_messages_delivered_one :
    ∃ s : Conn 208, Reachable (fun _ _ => false) Event.Whole s ∧
      (s .larger).receives = [(0, sample 1)] ∧ Sound (fun _ _ => false) s := by
  have h0 : Reachable (fun _ _ => false) Event.Whole (Conn.initial : Conn 208) := .initial
  have h1 := h0.step (.isendCtrlMsg .smaller (sample 1)) trivial
  have h2 := h1.step (.irecvCtrlMsg .larger) trivial
  have h3 := h2.step (.accept rfl) trivial
  have h4 := h3.step (.progressPendingOps .larger) trivial
  have h5 := h4.step (.recv .larger 208 (sample 0) rfl (by decide) (by decide) (by decide)) rfl
  exact ⟨_, h5, rfl, control_messages_delivered h5⟩

set_option maxRecDepth 4000 in
/-- A `recv` that returns 100 of the 208 bytes passes a wrong message on; one that finds nothing to
read makes `progress` fail. -/
theorem short_read_two :
    (∃ s : Conn 208, Reachable (fun _ _ => false) (fun _ => True) s ∧
      ¬Sound (fun _ _ => false) s ∧ (s .larger).receives.length = 1 ∧
      ∀ a, (s a).failed = false) ∧
    ∃ s : Conn 208, Reachable (fun _ _ => false) (fun _ => True) s ∧
      ¬Sound (fun _ _ => false) s ∧ (s .larger).failed = true := by
  have h0 : Reachable (fun _ _ => false) (fun _ => True) (Conn.initial : Conn 208) := .initial
  have h1 := h0.step (.isendCtrlMsg .smaller (sample 1)) trivial
  have h2 := h1.step (.accept rfl) trivial
  have h3 := h2.step (.irecvCtrlMsg .larger) trivial
  have h4 := h3.step (.recv .larger 100 (sample 0) rfl (by decide) (by decide) (by decide)) trivial
  have h5 := h3.step (.wouldBlock .larger rfl) trivial
  refine ⟨⟨_, h4, ?_, rfl, ?_⟩, ⟨_, h5, ?_, rfl⟩⟩
  · intro hsound
    have hshort := (hsound.deliveries .smaller).receives
    have hmem := hshort.subset (List.mem_singleton_self _)
    have hmsg := (List.of_mem_zip hmem).2
    have hlast := congrArg (fun m => m.bytes[200]?) (List.mem_singleton.mp hmsg)
    exact absurd hlast (by decide)
  · intro a
    cases a <;> rfl
  · intro hsound
    exact absurd (hsound.alive .larger) nofun

end TorchComms.Socket
