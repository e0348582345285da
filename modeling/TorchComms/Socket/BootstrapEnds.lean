import TorchComms.Socket.Bootstrap
import Mathlib.Algebra.BigOperators.Intervals

/-! # How bootstrap sockets end

`connect` gives up without an error when a code is not retried, `recv` goes on forever once the peer
has closed too early. What the accept thread survives follows from `recv`.
-/
namespace TorchComms.Bootstrap
open Foundation

/-! ## Connecting -/

def Retried (a : Except Errno Unit) : Prop := ∃ e, a = .error e ∧ shouldRetry e = true

def Connected (a : Except Errno Unit) : Prop := a = .ok () ∨ a = .error .eisconn

/-- `connect` ends, after a bounded number of attempts, and 0 means a connection. -/
def ConnectSound (c : ConnectCall) (answers : ℕ → Except Errno Unit) : Prop :=
  (∃ e, Connects c answers e) ∧
    ∀ code attempts, Connects c answers (.returned code attempts) →
      attempts ≤ c.numRetries + 1 ∧ (code = none → Connected (answers (attempts - 1)))

/-- An attempt fails with a code that is not retried and is not `EISCONN`. -/
def Rejected (c : ConnectCall) (answers : ℕ → Except Errno Unit) : Prop :=
  createSocket c.ifName c.setup = .ok () ∧
    ∃ n ≤ c.numRetries, (∀ i < n, Retried (answers i)) ∧
      ∃ e, answers n = .error e ∧ shouldRetry e = false ∧ e ≠ .eisconn

section Connect

variable {numRetries k k' n : ℕ} {close : Except Errno Unit} {a : Except Errno Unit}
  {answers : ℕ → Except Errno Unit} {c : ConnectCall}

theorem connectTurn_goOn :
    connectTurn numRetries close k a = .goOn k' ↔ Retried a ∧ k < numRetries ∧ k' = k + 1 := by
  rcases a with e | _
  · cases hr : shouldRetry e with
    | false => simp [connectTurn, Retried, hr]
    | true =>
      rcases Nat.lt_or_ge k numRetries with hk | hk
      · have hk' : ¬ numRetries ≤ k := by omega
        simp only [connectTurn, hr, Bool.not_true, Bool.false_eq_true, if_false, ge_iff_le, hk',
          Turn.goOn.injEq, Retried, Except.error.injEq, exists_eq_left', hk, true_and]
        exact eq_comm
      · have hk' : ¬ k < numRetries := by omega
        simp [connectTurn, hr, hk, hk']
  · simp [connectTurn, Retried]

theorem connectTurn_stop_none :
    connectTurn numRetries close k a = .stop none ↔
      a = .ok () ∨ ∃ e, a = .error e ∧ shouldRetry e = false := by
  rcases a with e | _
  · cases hr : shouldRetry e <;> by_cases hk : numRetries ≤ k <;>
      simp [connectTurn, hr, hk]
  · simp [connectTurn]

theorem reaches_connectTurn :
    Reaches (connectTurn numRetries close) 0 answers k n ↔
      k = n ∧ n ≤ numRetries ∧ ∀ i < n, Retried (answers i) := by
  constructor
  · intro h
    apply h.invariant (fun n k => k = n ∧ n ≤ numRetries ∧ ∀ i < n, Retried (answers i))
    · simp
    · rintro i t u ⟨rfl, -, hall⟩ hstep
      obtain ⟨hr, hlt, rfl⟩ := connectTurn_goOn.mp hstep
      refine ⟨rfl, hlt, fun j hj => ?_⟩
      rcases Nat.lt_succ_iff_lt_or_eq.mp hj with hj | rfl
      · exact hall j hj
      · exact hr
  · rintro ⟨rfl, hle, hall⟩
    induction k with
    | zero => exact .start
    | succ k ih =>
      have hk := ih (by omega) (fun i hi => hall i (by omega))
      apply hk.next
      exact connectTurn_goOn.mpr ⟨hall k (by omega), hle, rfl⟩

theorem exists_connects : ∃ e, Connects c answers e := by
  cases hsetup : createSocket c.ifName c.setup with
  | error what => exact ⟨.threw what, hsetup⟩
  | ok _ =>
    obtain ⟨code, n, h⟩ := exists_returns (connectTurn c.numRetries c.close) 0 answers
      c.numRetries (fun t u ht hstep => by
        obtain ⟨rfl, -⟩ := reaches_connectTurn.mp ht
        exact Nat.lt_irrefl _ (connectTurn_goOn.mp hstep).2.1)
    exact ⟨.returned code (n + 1), hsetup, n, rfl, h⟩

theorem connects_none :
    Connects c answers (.returned none (n + 1)) ↔
      createSocket c.ifName c.setup = .ok () ∧ n ≤ c.numRetries ∧ (∀ i < n, Retried (answers i)) ∧
        (answers n = .ok () ∨ ∃ e, answers n = .error e ∧ shouldRetry e = false) := by
  constructor
  · rintro ⟨hsetup, m, heq, k, hk, hstop⟩
    obtain rfl : n = m := by omega
    obtain ⟨-, hle, hall⟩ := reaches_connectTurn.mp hk
    exact ⟨hsetup, hle, hall, connectTurn_stop_none.mp hstop⟩
  · rintro ⟨hsetup, hle, hall, hlast⟩
    exact ⟨hsetup, n, rfl, n, reaches_connectTurn.mpr ⟨rfl, hle, hall⟩,
      connectTurn_stop_none.mpr hlast⟩

theorem connectSound_iff : ConnectSound c answers ↔ ¬ Rejected c answers := by
  constructor
  · rintro ⟨-, hsound⟩ ⟨hsetup, n, hle, hall, e, hn, hretry, hne⟩
    have hreturn := connects_none.mpr ⟨hsetup, hle, hall, .inr ⟨e, hn, hretry⟩⟩
    have hconn := (hsound none (n + 1) hreturn).2 rfl
    simp [Connected, hn, hne] at hconn
  · intro hno
    refine ⟨exists_connects, ?_⟩
    rintro code attempts ⟨hsetup, n, rfl, k, hk, hstop⟩
    obtain ⟨rfl, hle, hall⟩ := reaches_connectTurn.mp hk
    refine ⟨by omega, ?_⟩
    rintro rfl
    rcases connectTurn_stop_none.mp hstop with hok | ⟨e, he, hretry⟩
    · exact .inl hok
    · right
      by_contra hne
      exact hno ⟨hsetup, k, hle, hall, e, he, hretry, fun h => hne (h ▸ he)⟩

end Connect

/-! ## Transferring -/

def FatalAnswer (a : Except Errno ℕ) : Prop := ∃ e, a = .error e ∧ Fatal e

def count : Except Errno ℕ → ℕ
  | .ok n => n
  | .error _ => 0

/-- What the first calls moved, or offered to. -/
def moved (answers : ℕ → Except Errno ℕ) (n : ℕ) : ℕ := ∑ i ∈ Finset.range n, count (answers i)

/-- The positions of the buffer from the first on, each once and in order. -/
structure InBuffer (len : ℕ) (t : Transfer) : Prop where
  placed : t.placed = List.range t.total
  total_le : t.total ≤ len

/-- The peer has closed the connection before the call of number `m`. -/
def Closed (answers : ℕ → Except Errno ℕ) (m : ℕ) : Prop := ∀ i ≥ m, answers i = .ok 0

/-- The peer closes before `len` bytes have come, and no error ends the call before. -/
def ClosedEarly (len : ℕ) (answers : ℕ → Except Errno ℕ) : Prop :=
  ∃ m, Closed answers m ∧ (∀ i < m, ¬ FatalAnswer (answers i)) ∧ moved answers m < len

/-- 0 means all bytes, and at no time is a byte outside the buffer touched. -/
def SendSound (len : ℕ) (answers : ℕ → Except Errno ℕ) : Prop :=
  (∀ t n, Reaches (transferTurn len) {} answers t n → InBuffer len t) ∧
    ∀ code t, Sends len answers code t → InBuffer len t ∧ (code = none → t.total = len)

/-- The same, and `recv` ends once the peer has closed. -/
def RecvSound (len : ℕ) (answers : ℕ → Except Errno ℕ) : Prop :=
  (∀ t n, Reaches (transferTurn len) {} answers t n → InBuffer len t) ∧
    (∀ code t, Recvs len answers code t → InBuffer len t ∧ (code = none → t.total = len)) ∧
    ∀ m, Closed answers m → ∃ code t, Recvs len answers code t

section Transfer

variable {len m n : ℕ} {t u : Transfer} {a : Except Errno ℕ} {answers : ℕ → Except Errno ℕ}
  {code : Option Errno}

theorem moved_succ : moved answers (n + 1) = moved answers n + count (answers n) :=
  Finset.sum_range_succ _ n

theorem moved_mono : Monotone (moved answers) := by
  apply monotone_nat_of_le_succ
  intro n
  rw [moved_succ]
  exact Nat.le_add_right _ _

theorem Closed.moved_le (h : Closed answers m) : moved answers n ≤ moved answers m := by
  induction n with
  | zero => exact Nat.zero_le _
  | succ n ih =>
    rcases Nat.lt_or_ge n m with hlt | hge
    · exact moved_mono hlt
    · rw [moved_succ, h n hge]
      exact ih

/-- The state after a call that does not end the loop by an error. -/
def Transfer.after (len : ℕ) (a : Except Errno ℕ) (t : Transfer) : Transfer :=
  t.move (min (count a) (len - t.total))

theorem transferTurn_of_fatal {e : Errno} (h : Fatal e) :
    transferTurn len t (.error e) = .stop (some e, t) := by
  simp [transferTurn, h]

theorem transferTurn_of_not_fatal (h : ¬ FatalAnswer a) :
    transferTurn len t a = again len (t.after len a) := by
  rcases a with e | n
  · have he : ¬ Fatal e := fun he => h ⟨e, rfl, he⟩
    simp [transferTurn, he, Transfer.after, Transfer.move, count]
  · rfl

theorem transferTurn_goOn :
    transferTurn len t a = .goOn u ↔ ¬ FatalAnswer a ∧ u = t.after len a ∧ u.total < len := by
  by_cases h : FatalAnswer a
  · obtain ⟨e, rfl, he⟩ := h
    simp [transferTurn_of_fatal he, FatalAnswer, he]
  · rw [transferTurn_of_not_fatal h, again]
    split
    · next hlt =>
      simp only [Turn.goOn.injEq, h, not_false_iff, true_and]
      constructor
      · rintro rfl
        exact ⟨rfl, hlt⟩
      · exact fun h => h.1.symm
    · next hge =>
      simp only [reduceCtorEq, h, not_false_iff, true_and, false_iff]
      rintro ⟨rfl, hlt⟩
      exact hge hlt

theorem transferTurn_stop :
    transferTurn len t a = .stop (code, u) ↔
      (∃ e, a = .error e ∧ Fatal e ∧ code = some e ∧ u = t) ∨
        (¬ FatalAnswer a ∧ code = none ∧ u = t.after len a ∧ len ≤ u.total) := by
  by_cases h : FatalAnswer a
  · obtain ⟨e, rfl, he⟩ := h
    simp [transferTurn_of_fatal he, FatalAnswer, he, eq_comm]
  · have hno : ¬ ∃ e, a = .error e ∧ Fatal e ∧ code = some e ∧ u = t :=
      fun ⟨e, ha, he, _⟩ => h ⟨e, ha, he⟩
    rw [transferTurn_of_not_fatal h, again]
    split
    · next hlt =>
      simp only [reduceCtorEq, hno, h, not_false_iff, true_and, false_or, false_iff]
      rintro ⟨-, rfl, hle⟩
      omega
    · next hge =>
      simp only [Turn.stop.injEq, Prod.mk.injEq, hno, h, not_false_iff, true_and, false_or]
      constructor
      · rintro ⟨rfl, rfl⟩
        exact ⟨rfl, rfl, by omega⟩
      · exact fun h => ⟨h.1.symm, h.2.1.symm⟩

theorem InBuffer.after (h : InBuffer len t) : InBuffer len (t.after len a) := by
  obtain ⟨hplaced, hle⟩ := h
  constructor
  · rw [Transfer.after, Transfer.move, hplaced, List.range_eq_range', List.range_eq_range',
      ← List.range'_append_1, Nat.zero_add]
  · rw [Transfer.after, Transfer.move]
    change t.total + _ ≤ len
    omega

/-- Before the call of number `n`. -/
structure Progress (len : ℕ) (answers : ℕ → Except Errno ℕ) (n : ℕ) (t : Transfer) : Prop where
  inBuffer : InBuffer len t
  total : t.total = min len (moved answers n)
  not_fatal : ∀ i < n, ¬ FatalAnswer (answers i)
  short : n = 0 ∨ moved answers n < len

theorem Progress.total_after (h : Progress len answers n t) :
    (t.after len (answers n)).total = min len (moved answers (n + 1)) := by
  rw [moved_succ]
  change t.total + _ = _
  have := h.total
  omega

theorem reaches_progress (h : Reaches (transferTurn len) {} answers t n) :
    Progress len answers n t := by
  apply h.invariant (Progress len answers)
  · exact ⟨⟨rfl, Nat.zero_le _⟩, by simp [moved], by simp, .inl rfl⟩
  · intro i t u hi hstep
    obtain ⟨hfatal, rfl, hlt⟩ := transferTurn_goOn.mp hstep
    refine ⟨hi.inBuffer.after, hi.total_after, fun j hj => ?_, .inr ?_⟩
    · rcases Nat.lt_succ_iff_lt_or_eq.mp hj with hj | rfl
      · exact hi.not_fatal j hj
      · exact hfatal
    · rw [hi.total_after] at hlt
      omega

theorem returns_sound (h : Returns (transferTurn len) {} answers (code, t) n) :
    InBuffer len t ∧ (code = none → t.total = len) := by
  obtain ⟨u, hu, hstop⟩ := h
  have hbuf := (reaches_progress hu).inBuffer
  rcases transferTurn_stop.mp hstop with ⟨e, -, -, rfl, rfl⟩ | ⟨-, rfl, rfl, hle⟩
  · exact ⟨hbuf, fun h => by cases h⟩
  · exact ⟨hbuf.after, fun _ => Nat.le_antisymm hbuf.after.total_le hle⟩

theorem recvs_iff :
    (∃ code t, Recvs len answers code t) ↔
      ∃ n, FatalAnswer (answers n) ∨ len ≤ moved answers (n + 1) := by
  constructor
  · rintro ⟨code, t, n, u, hu, hstop⟩
    refine ⟨n, ?_⟩
    rcases transferTurn_stop.mp hstop with ⟨e, he, hfatal, -⟩ | ⟨-, -, rfl, hle⟩
    · exact .inl ⟨e, he, hfatal⟩
    · right
      rw [(reaches_progress hu).total_after] at hle
      omega
  · rintro ⟨n, hn⟩
    obtain ⟨⟨code, t⟩, m, h⟩ := exists_returns (transferTurn len) {} answers n
      (fun t u ht hstep => by
        obtain ⟨hfatal, rfl, hlt⟩ := transferTurn_goOn.mp hstep
        rw [(reaches_progress ht).total_after] at hlt
        rcases hn with hn | hn
        · exact hfatal hn
        · omega)
    exact ⟨code, t, m, h⟩

theorem not_closedEarly_iff :
    (∀ m, Closed answers m → ∃ code t, Recvs len answers code t) ↔ ¬ ClosedEarly len answers := by
  constructor
  · rintro hends ⟨m, hclosed, hfatal, hlt⟩
    obtain ⟨n, hn | hn⟩ := recvs_iff.mp (hends m hclosed)
    · rcases Nat.lt_or_ge n m with hnm | hnm
      · exact hfatal n hnm hn
      · obtain ⟨e, he, -⟩ := hn
        rw [hclosed n hnm] at he
        cases he
    · have : moved answers (n + 1) ≤ moved answers m := hclosed.moved_le
      omega
  · intro hno m hclosed
    by_contra hloop
    rw [recvs_iff] at hloop
    push Not at hloop
    refine hno ⟨m, hclosed, fun i _ => (hloop i).1, ?_⟩
    have : moved answers m ≤ moved answers (m + 1) := moved_mono (Nat.le_succ m)
    have := (hloop m).2
    omega

theorem sendSound : SendSound len answers := by
  constructor
  · exact fun t n h => (reaches_progress h).inBuffer
  · rintro code t ⟨n, h⟩
    exact returns_sound h

theorem recvSound_iff : RecvSound len answers ↔ ¬ ClosedEarly len answers := by
  rw [← not_closedEarly_iff]
  constructor
  · exact fun h => h.2.2
  · intro h
    refine ⟨fun t n h => (reaches_progress h).inBuffer, ?_, h⟩
    rintro code t ⟨n, h⟩
    exact returns_sound h

theorem recvs_none_iff (hlen : 0 < len) :
    (∃ t, Recvs len answers none t) ↔
      ∃ m, (∀ i < m, ¬ FatalAnswer (answers i)) ∧ len ≤ moved answers m := by
  constructor
  · rintro ⟨t, n, u, hu, hstop⟩
    have hp := reaches_progress hu
    obtain ⟨e, -, -, hcode, -⟩ | ⟨hfatal, -, rfl, hle⟩ := transferTurn_stop.mp hstop
    · cases hcode
    · refine ⟨n + 1, fun i hi => ?_, ?_⟩
      · rcases Nat.lt_succ_iff_lt_or_eq.mp hi with hi | rfl
        · exact hp.not_fatal i hi
        · exact hfatal
      · rw [hp.total_after] at hle
        omega
  · rintro ⟨m, hfatal, hle⟩
    obtain ⟨m, rfl⟩ : ∃ m', m = m' + 1 := Nat.exists_eq_succ_of_ne_zero (by
      rintro rfl
      simp [moved] at hle
      omega)
    obtain ⟨code, t, n, u, hu, hstop⟩ := recvs_iff.mpr ⟨m, .inr hle⟩
    have hp := reaches_progress hu
    -- the call does not go on past the last byte, so it does not see a later error
    have hn : n ≤ m := by
      by_contra hlt
      have : moved answers (m + 1) ≤ moved answers n := moved_mono (Nat.lt_of_not_le hlt)
      rcases hp.short with rfl | hshort <;> omega
    obtain ⟨e, he, hf, -⟩ | ⟨-, rfl, -⟩ := transferTurn_stop.mp hstop
    · exact absurd ⟨e, he, hf⟩ (hfatal n (by omega))
    · exact ⟨t, n, u, hu, hstop⟩

end Transfer

/-! ## Accepting -/

/-- The peer sends its rank before the connection fails. -/
def Peer.Introduced (p : Peer) : Prop :=
  ∃ m, (∀ i < m, ¬ FatalAnswer (p.answers i)) ∧ sizeofInt ≤ moved p.answers m

/-- Peers that the accept thread survives: each sends a rank that is valid and new. -/
structure Welcome (nRanks : Option ℤ) (rankToSocket : List ℤ) (peers : List Peer) : Prop where
  introduced : ∀ p ∈ peers, p.Introduced
  valid : ∀ p ∈ peers, checkValidPeer nRanks p.peerRank = true
  unknown : ∀ p ∈ peers, p.peerRank ∉ rankToSocket
  nodup : (peers.map Peer.peerRank).Nodup

variable {nRanks : Option ℤ}

theorem storeSocket_eq_some {rankToSocket stored : List ℤ} {peerRank : ℤ} :
    storeSocket nRanks rankToSocket peerRank = some stored ↔
      checkValidPeer nRanks peerRank = true ∧ peerRank ∉ rankToSocket ∧
        stored = peerRank :: rankToSocket := by
  by_cases hv : checkValidPeer nRanks peerRank = true <;>
    by_cases hm : peerRank ∈ rankToSocket <;>
      simp [storeSocket, updateSocket, hv, hm, eq_comm]

variable {rankToSocket : List ℤ} {peers : List Peer}

theorem welcome_cons {p : Peer} :
    Welcome nRanks rankToSocket (p :: peers) ↔
      p.Introduced ∧ checkValidPeer nRanks p.peerRank = true ∧ p.peerRank ∉ rankToSocket ∧
        Welcome nRanks (p.peerRank :: rankToSocket) peers := by
  constructor
  · rintro ⟨hi, hv, hu, hn⟩
    rw [List.forall_mem_cons] at hi hv hu
    rw [List.map_cons, List.nodup_cons] at hn
    refine ⟨hi.1, hv.1, hu.1, hi.2, hv.2, fun q hq => ?_, hn.2⟩
    rw [List.mem_cons, not_or]
    exact ⟨fun h => hn.1 (h ▸ List.mem_map_of_mem hq), hu.2 q hq⟩
  · rintro ⟨hi, hv, hu, hi', hv', hu', hn⟩
    refine ⟨?_, ?_, ?_, ?_⟩
    · exact List.forall_mem_cons.mpr ⟨hi, hi'⟩
    · exact List.forall_mem_cons.mpr ⟨hv, hv'⟩
    · refine List.forall_mem_cons.mpr ⟨hu, fun q hq => ?_⟩
      exact fun h => hu' q hq (List.mem_cons_of_mem _ h)
    · rw [List.map_cons, List.nodup_cons]
      refine ⟨fun h => ?_, hn⟩
      obtain ⟨q, hq, heq⟩ := List.mem_map.mp h
      exact hu' q hq (heq ▸ List.mem_cons_self)

theorem accepts_iff :
    (∃ after, Accepts nRanks rankToSocket peers after) ↔ Welcome nRanks rankToSocket peers := by
  induction peers generalizing rankToSocket with
  | nil =>
    constructor
    · intro _
      exact ⟨by simp, by simp, by simp, List.nodup_nil⟩
    · exact fun _ => ⟨rankToSocket, .listening⟩
  | cons p peers ih =>
    rw [welcome_cons, ← ih, Peer.Introduced, ← recvs_none_iff (by decide)]
    constructor
    · rintro ⟨after, h⟩
      cases h with
      | accepted hrecv hstore hrest =>
        obtain ⟨hv, hu, rfl⟩ := storeSocket_eq_some.mp hstore
        exact ⟨⟨_, hrecv⟩, hv, hu, after, hrest⟩
    · rintro ⟨⟨t, hrecv⟩, hv, hu, after, hrest⟩
      exact ⟨after, .accepted hrecv (storeSocket_eq_some.mpr ⟨hv, hu, rfl⟩) hrest⟩

/-- When bootstrap sockets report failure and end: `connect` unless it is rejected, `recv` unless
the peer closes early, the accept thread as long as its peers are welcome, and `send` always. -/
theorem bootstrap_sound_iff (c : ConnectCall) (connects : ℕ → Except Errno Unit) (len : ℕ)
    (sends recvs : ℕ → Except Errno ℕ) (nRanks : Option ℤ) (rankToSocket : List ℤ)
    (peers : List Peer) :
    (ConnectSound c connects ↔ ¬ Rejected c connects) ∧ SendSound len sends ∧
      (RecvSound len recvs ↔ ¬ ClosedEarly len recvs) ∧
      ((∃ after, Accepts nRanks rankToSocket peers after) ↔ Welcome nRanks rankToSocket peers) :=
  ⟨connectSound_iff, sendSound, recvSound_iff, accepts_iff⟩

/-- `EACCES` is not retried, so `connect` returns 0; a peer that closes at once keeps `recv`, and the
accept thread with it, for good. -/
theorem not_bootstrap_sound :
    ¬ ConnectSound ⟨"", 10, {}, .ok ()⟩ (fun _ => .error .eacces) ∧
      ¬ RecvSound 4 (fun _ => .ok 0) ∧
      ¬ ∃ after, Accepts (some 2) [] [⟨fun _ => .ok 0, 0⟩] after := by
  have hloop : ClosedEarly 4 (fun _ => .ok 0) :=
    ⟨0, fun _ _ => rfl, fun i hi => absurd hi (Nat.not_lt_zero i), by simp [moved]⟩
  refine ⟨?_, ?_, ?_⟩
  · rw [connectSound_iff, not_not]
    exact ⟨rfl, 0, Nat.zero_le _, fun i hi => absurd hi (Nat.not_lt_zero i), .eacces, rfl, rfl,
      by decide⟩
  · rw [recvSound_iff, not_not]
    exact hloop
  · rw [accepts_iff]
    rintro ⟨hi, -⟩
    obtain ⟨m, -, hm⟩ := hi _ List.mem_cons_self
    simp [moved, count, sizeofInt] at hm

end TorchComms.Bootstrap
