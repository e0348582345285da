import TorchComms.Algos.BroadcastTree
import TorchComms.Foundation.BinomialTree
import TorchComms.Foundation.Loop

/-! # What the two phases compute

Where no `int` overflows, both phases derive the neighbours of a rank in the binomial tree around
the root: the loops list the children, in the order of their distances, and the rank at the highest
bit's distance is the parent.
-/
namespace TorchComms.Algos.Broadcast

open Mapper Foundation Foundation.BinomialTree

/-- The largest number of ranks for which no `int` overflows. -/
def maxRanks : ℕ := 2 ^ 30

theorem int_ok {x : ℕ} (h : x < 2 ^ 31) : int x = .ok x := if_pos h

theorem floorPow2_eq (x : ℕ) : floorPow2 x = top x := by
  unfold floorPow2 top
  rw [Nat.one_shiftLeft]

theorem top_le_half {d : ℕ} (h : d < 2 ^ 30) : top d ≤ 2 ^ 29 := by
  unfold top
  split
  · exact Nat.zero_le _
  · rename_i hd
    apply Nat.pow_le_pow_right (by omega)
    have : d.log2 < 30 := (Nat.log2_lt hd).mpr h
    omega

/-- The places at `sendOffset`, twice it, four times it, and so on up to the last rank. -/
def targets (n r d : ℕ) : ℕ → ℕ → List ℕ
  | 0, _ => []
  | fuel + 1, sendOffset =>
    if d + sendOffset < n then (r + sendOffset) % n :: targets n r d fuel (sendOffset * 2) else []

theorem mem_targets {n r d k fuel sendOffset : ℕ} (h : n ≤ sendOffset * 2 ^ fuel) :
    k ∈ targets n r d (fuel + 1) sendOffset ↔
      ∃ i, d + sendOffset * 2 ^ i < n ∧ k = (r + sendOffset * 2 ^ i) % n := by
  induction fuel generalizing sendOffset with
  | zero =>
    rw [targets, if_neg (by omega)]
    constructor
    · exact fun hk => absurd hk List.not_mem_nil
    · rintro ⟨i, hi, _⟩
      have := Nat.le_mul_of_pos_right sendOffset (Nat.two_pow_pos i)
      omega
  | succ fuel ih =>
    rw [targets]
    split
    · rw [List.mem_cons, ih (by rw [mul_assoc, ← pow_succ']; exact h)]
      constructor
      · rintro (rfl | ⟨i, hi, rfl⟩)
        · exact ⟨0, by rwa [pow_zero, mul_one], by rw [pow_zero, mul_one]⟩
        · rw [mul_assoc, ← pow_succ'] at hi
          exact ⟨i + 1, hi, by rw [mul_assoc, ← pow_succ']⟩
      · rintro ⟨i, hi, rfl⟩
        cases i with
        | zero =>
          left
          rw [pow_zero, mul_one]
        | succ i =>
          right
          use i
          rw [mul_assoc, ← pow_succ']
          exact ⟨hi, rfl⟩
    · constructor
      · exact fun hk => absurd hk List.not_mem_nil
      · rintro ⟨i, hi, _⟩
        have := Nat.le_mul_of_pos_right sendOffset (Nat.two_pow_pos i)
        omega

namespace Call

variable {c : Call} {r : ℕ}

/-- The children of a rank, in the order in which it puts to them. -/
def children (c : Call) (r : ℕ) : List ℕ :=
  targets c.nRanks r (dist c.nRanks c.root r) rounds (first (dist c.nRanks c.root r))

def parent (c : Call) (r : ℕ) : ℕ := parentOf c.nRanks c.root r

theorem rounds_enough (hn : c.nRanks ≤ maxRanks) (d : ℕ) : c.nRanks ≤ first d * 2 ^ 31 := by
  have := first_pos d
  unfold maxRanks at hn
  omega

variable {b : CtranMapperBackend} {d fuel sendOffset : ℕ} {e : Fault} {peer : ℕ} {k : ℕ}

theorem mem_children (hn : c.nRanks ≤ maxRanks) (hr : r < c.nRanks) (hk : k < c.nRanks) :
    k ∈ c.children r ↔ k ≠ c.root ∧ c.parent k = r := by
  rw [children, rounds, mem_targets (rounds_enough hn _)]
  exact child_iff_parentOf c.root_lt hr hk

theorem lt_of_mem_children (hn : c.nRanks ≤ maxRanks) (hk : k ∈ c.children r) : k < c.nRanks := by
  rw [children, rounds, mem_targets (rounds_enough hn _)] at hk
  obtain ⟨i, _, rfl⟩ := hk
  exact Nat.mod_lt _ (by have := c.root_lt; omega)

theorem nodup_targets (hr : r < c.nRanks) {fuel sendOffset : ℕ} (hpos : 0 < sendOffset)
    (h : c.nRanks ≤ sendOffset * 2 ^ fuel) :
    (targets c.nRanks r (dist c.nRanks c.root r) (fuel + 1) sendOffset).Nodup := by
  induction fuel generalizing sendOffset with
  | zero =>
    rw [targets, if_neg (by omega)]
    exact List.nodup_nil
  | succ fuel ih =>
    have h' : c.nRanks ≤ sendOffset * 2 * 2 ^ fuel := by
      rw [mul_assoc, ← pow_succ']
      exact h
    rw [targets]
    split
    · rename_i hlt
      rw [List.nodup_cons]
      constructor
      · intro hmem
        obtain ⟨i, hi, heq⟩ := (mem_targets h').mp hmem
        have hfirst := (dist_add c.root_lt hr hlt).2
        rw [heq, (dist_add c.root_lt hr hi).2] at hfirst
        have := Nat.le_mul_of_pos_right (sendOffset * 2) (Nat.two_pow_pos i)
        omega
      · exact ih (by omega) h'
    · exact List.nodup_nil

section

variable (hn : c.nRanks ≤ maxRanks) (hr : r < c.nRanks)
include hn hr

theorem nodup_children : (c.children r).Nodup :=
  nodup_targets hr (first_pos _) (rounds_enough hn _)

/-! ### What the two phases compute -/

theorem rootDist_ok : c.rootDist r = .ok (dist c.nRanks c.root r) := by
  unfold maxRanks at hn
  rw [rootDist, int_ok (by omega)]
  rfl

theorem recvFrom_ok : c.recvFrom r (top (dist c.nRanks c.root r)) = .ok (c.parent r) := by
  unfold maxRanks at hn
  rw [recvFrom, int_ok (by omega)]
  rfl

end

/-- The backend of a peer, as the rank's mapper gives it. -/
def backend (c : Call) (r peer : ℕ) : CtranMapperBackend :=
  ((c.backends r).getBackend peer).getD .UNSET

theorem getBackend_ok (h : peer < c.nRanks) : c.getBackend r peer = .ok (c.backend r peer) := by
  obtain ⟨b, hb⟩ := (c.backends r).exists_getBackend h
  rw [getBackend, backend, hb]
  rfl

theorem first_reach (hn : c.nRanks ≤ maxRanks) (hr : r < c.nRanks) :
    dist c.nRanks c.root r + first (dist c.nRanks c.root r) < 2 ^ 31 := by
  have hd : dist c.nRanks c.root r < 2 ^ 30 := (dist_lt hr).trans_le hn
  have htop := top_le_half hd
  unfold first
  split <;> omega

theorem recvCtrls_ok (hn : c.nRanks ≤ maxRanks) (hr : r < c.nRanks)
    (hreach : d + sendOffset < 2 ^ 31) (h : c.nRanks ≤ sendOffset * 2 ^ fuel) :
    c.recvCtrls r d (fuel + 1) sendOffset =
      .ok (targets c.nRanks r d (fuel + 1) sendOffset) := by
  unfold maxRanks at hn
  induction fuel generalizing sendOffset with
  | zero =>
    have hge : ¬ d + sendOffset < c.nRanks := by omega
    simp only [recvCtrls, targets, int_ok hreach, bind, Except.bind, hge, if_false]
    rfl
  | succ fuel ih =>
    by_cases hlt : d + sendOffset < c.nRanks
    · have hrank : r + sendOffset < 2 ^ 31 := by omega
      have hnext : sendOffset * 2 < 2 ^ 31 := by omega
      have hrec := @ih (sendOffset * 2) (by omega)
        (by rw [mul_assoc, ← pow_succ']; exact h)
      rw [recvCtrls, targets]
      simp only [int_ok hreach, int_ok hrank, int_ok hnext, bind, Except.bind, hlt, if_true, hrec]
      rfl
    · rw [recvCtrls, targets]
      simp only [int_ok hreach, bind, Except.bind, hlt, if_false]
      rfl

/-- The element for the put to a child. -/
def putElem (c : Call) (r sendTo : ℕ) : PutNotify where
  sendbuff := c.recvbuff r
  nbytes := c.sendSize
  peerLocalRank := c.localRank sendTo
  ngroups := c.getNumGroups c.sendSize
  notify := true

def nvlOnly (c : Call) (r : ℕ) (peers : List ℕ) : List ℕ := peers.filter fun p => c.backend r p = .NVL

theorem planPuts_ok (hn : c.nRanks ≤ maxRanks) (hr : r < c.nRanks)
    (hreach : d + sendOffset < 2 ^ 31) (h : c.nRanks ≤ sendOffset * 2 ^ fuel) :
    c.planPuts r d (c.getNumGroups c.sendSize) (fuel + 1) sendOffset =
      .ok ((c.nvlOnly r (targets c.nRanks r d (fuel + 1) sendOffset)).map
        fun p => (p, c.putElem r p)) := by
  unfold maxRanks at hn
  induction fuel generalizing sendOffset with
  | zero =>
    have hge : ¬ d + sendOffset < c.nRanks := by omega
    simp only [planPuts, targets, int_ok hreach, bind, Except.bind, hge, if_false]
    rfl
  | succ fuel ih =>
    by_cases hlt : d + sendOffset < c.nRanks
    · have hrank : r + sendOffset < 2 ^ 31 := by omega
      have hnext : sendOffset * 2 < 2 ^ 31 := by omega
      have hmod : (r + sendOffset) % c.nRanks < c.nRanks := Nat.mod_lt _ (by omega)
      have hrec := @ih (sendOffset * 2) (by omega)
        (by rw [mul_assoc, ← pow_succ']; exact h)
      rw [planPuts, targets]
      simp only [int_ok hreach, int_ok hrank, int_ok hnext, bind, Except.bind, hlt, if_true, hrec,
        getBackend_ok hmod, nvlOnly, List.filter_cons]
      by_cases hnvl : c.backend r ((r + sendOffset) % c.nRanks) = .NVL
      · simp only [hnvl, if_true, decide_true, List.map_cons]
        rfl
      · simp only [hnvl, if_false, decide_false, Bool.false_eq_true]
        rfl
    · rw [planPuts, targets]
      simp only [int_ok hreach, bind, Except.bind, hlt, if_false]
      rfl

/-- The element for the wait for the parent. -/
def waitElem (c : Call) (r : ℕ) : WaitNotify where
  peerLocalRank := c.localRank (c.parent r)
  recvbuff := c.recvbuff r
  nbytes := c.sendSize
  ngroups := c.getNumGroups c.sendSize

/-- What the plan of a receiving rank holds, when the backend that it asks about is `b`. -/
structure PlannedRecv (c : Call) (r : ℕ) (b : CtranMapperBackend) (plan : Plan) : Prop where
  map : plan.waitNotifyMap = if requiresRecvNotify b then [(c.parent r, c.waitElem r)] else []
  list : plan.waitNotifyList =
    if requiresRecvNotify b ∧ requiresPostRecvNotify b then [c.waitElem r] else []

section

variable (hn : c.nRanks ≤ maxRanks) (hr : r < c.nRanks)
include hn hr

theorem planRecv_ok
    (hb : c.getBackend r c.peerRank = .ok b) :
    ∃ plan, c.planRecv r (top (dist c.nRanks c.root r)) = .ok plan ∧ c.PlannedRecv r b plan := by
  have hparent : c.parent r < c.nRanks := (dist_parentOf c.root_lt hr).1
  rw [planRecv]
  simp only [recvFrom_ok hn hr, getBackend_ok hparent, hb, bind, Except.bind]
  exact ⟨_, rfl, rfl, rfl⟩

theorem planRecv_error
    (hb : c.getBackend r c.peerRank = .error e) :
    c.planRecv r (top (dist c.nRanks c.root r)) = .error e := by
  have hparent : c.parent r < c.nRanks := (dist_parentOf c.root_lt hr).1
  rw [planRecv]
  simp only [recvFrom_ok hn hr, getBackend_ok hparent, hb, bind, Except.bind]

theorem double_ok :
    int (top (dist c.nRanks c.root r) * 2) = .ok (top (dist c.nRanks c.root r) * 2) := by
  apply int_ok
  have hlt : dist c.nRanks c.root r < c.nRanks := dist_lt hr
  have := top_le_half (hlt.trans_le hn)
  omega

end

theorem first_eq (hr : r < c.nRanks) : first (dist c.nRanks c.root r) =
    if r ≠ c.root then top (dist c.nRanks c.root r) * 2 else 1 := by
  have hzero := dist_eq_zero c.root_lt hr
  unfold first
  split
  · rw [if_neg (not_not.mpr (hzero.mp ‹_›))]
  · rw [if_pos fun h => ‹¬_› (hzero.mpr h), Nat.mul_comm]

theorem setupPlan_empty (hn : c.nRanks ≤ maxRanks) (hr : r < c.nRanks)
    (h : c.sendSize = 0 ∨ c.nRanks = 1) : c.setupPlan r = .ok {} := by
  rw [setupPlan]
  simp only [rootDist_ok hn hr, floorPow2_eq, double_ok hn hr, bind, Except.bind, h, if_true]
  rfl

/-- What the plan of any rank holds for its puts. -/
def PlannedPuts (c : Call) (r : ℕ) (plan : Plan) : Prop :=
  plan.putNotifyMap = (c.nvlOnly r (c.children r)).map fun p => (p, c.putElem r p)

section

variable (hn : c.nRanks ≤ maxRanks)
include hn

theorem setupPlan_root (hsize : c.sendSize ≠ 0) (h1 : c.nRanks ≠ 1) :
    ∃ plan, c.setupPlan c.root = .ok plan ∧ c.PlannedPuts c.root plan ∧
      plan.waitNotifyMap = [] ∧ plan.waitNotifyList = [] := by
  have hr := c.root_lt
  have hputs := planPuts_ok hn hr (first_reach hn hr) (rounds_enough hn _)
  have hfirst := first_eq (c := c) hr
  rw [if_neg (not_not.mpr rfl)] at hfirst
  rw [hfirst] at hputs
  rw [setupPlan]
  simp only [rootDist_ok hn hr, floorPow2_eq, double_ok hn hr, bind, Except.bind, hsize, h1,
    or_self, if_false, ne_eq, not_true_eq_false, pure, Except.pure, rounds, hputs]
  refine ⟨_, rfl, ?_, rfl, rfl⟩
  unfold PlannedPuts children
  rw [hfirst]
  rfl

theorem setupPlan_ok (hr : r < c.nRanks) (hroot : r ≠ c.root)
    (hsize : c.sendSize ≠ 0) (hb : c.getBackend r c.peerRank = .ok b) :
    ∃ plan, c.setupPlan r = .ok plan ∧ c.PlannedPuts r plan ∧ c.PlannedRecv r b plan := by
  have h1 : c.nRanks ≠ 1 := by
    have := c.root_lt
    omega
  obtain ⟨plan, hplan, hrecv⟩ := planRecv_ok hn hr hb
  have hputs := planPuts_ok hn hr (first_reach hn hr) (rounds_enough hn _)
  have hfirst := first_eq (c := c) hr
  rw [if_pos hroot] at hfirst
  rw [hfirst] at hputs
  rw [setupPlan]
  simp only [rootDist_ok hn hr, floorPow2_eq, double_ok hn hr, bind, Except.bind, hsize, h1,
    or_self, if_false, ne_eq, hroot, not_false_eq_true, if_true, hplan, pure, Except.pure, rounds,
    hputs]
  refine ⟨_, rfl, ?_, hrecv.map, hrecv.list⟩
  unfold PlannedPuts children
  rw [hfirst]
  rfl

theorem setupPlan_error (hr : r < c.nRanks) (hroot : r ≠ c.root)
    (hsize : c.sendSize ≠ 0) (hb : c.getBackend r c.peerRank = .error e) :
    c.setupPlan r = .error e := by
  have h1 : c.nRanks ≠ 1 := by
    have := c.root_lt
    omega
  rw [setupPlan]
  simp only [rootDist_ok hn hr, floorPow2_eq, double_ok hn hr, bind, Except.bind, hsize, h1,
    or_self, if_false, ne_eq, hroot, not_false_eq_true, if_true, planRecv_error hn hr hb]

end

/-! ### The execution -/

theorem iput_ok (plan : Plan) (h : peer < c.nRanks) : c.iput plan r peer =
    .ok (peer, lookUp plan.putNotifyMap (c.isDevice ∧ c.backend r peer = .NVL) peer) := by
  rw [iput]
  simp only [getBackend_ok h, bind, Except.bind]
  rfl

/-- What `impl` does when no `int` overflows. -/
structure Executed (c : Call) (plan : Plan) (r : ℕ) (e : Exec) : Prop where
  parent : e.parent = if r = c.root then none else some (c.parent r,
    lookUp plan.waitNotifyMap (c.isDevice ∧ requiresRecvNotify (c.backend r (c.parent r)))
      (c.parent r))
  irecvCtrl : e.irecvCtrl = c.children r
  iputs : e.iputs = (c.children r).map fun k =>
    (k, lookUp plan.putNotifyMap (c.isDevice ∧ c.backend r k = .NVL) k)

theorem iputs_ok (hn : c.nRanks ≤ maxRanks) (plan : Plan) :
    (c.children r).mapM (c.iput plan r) = .ok ((c.children r).map fun k =>
      (k, lookUp plan.putNotifyMap (c.isDevice ∧ c.backend r k = .NVL) k)) := by
  apply mapM_ok
  intro k hk
  exact iput_ok plan (lt_of_mem_children hn hk)

theorem impl_ok (hn : c.nRanks ≤ maxRanks) (hr : r < c.nRanks) (h1 : c.nRanks ≠ 1) (plan : Plan) :
    ∃ e, c.impl plan r = .ok e ∧ c.Executed plan r e := by
  have hparent : c.parent r < c.nRanks := (dist_parentOf c.root_lt hr).1
  have hreach := first_reach hn hr
  have hpeers := recvCtrls_ok hn hr hreach (rounds_enough hn _)
  have hfirst := first_eq (c := c) hr
  have hiputs := iputs_ok (r := r) hn plan
  unfold children rounds at hiputs
  rw [impl]
  by_cases hroot : r = c.root
  · rw [if_neg (not_not.mpr hroot)] at hfirst
    rw [hfirst] at hpeers hiputs
    subst hroot
    simp only [rootDist_ok hn hr, floorPow2_eq, if_true, bind, Except.bind, ne_eq,
      not_true_eq_false, if_false, pure, Except.pure, h1, recvFrom_ok hn hr,
      Bool.false_eq_true, rounds, hpeers, hiputs]
    refine ⟨_, rfl, ?_, ?_, ?_⟩
    · rw [if_pos rfl]
    · rw [children, hfirst, rounds]
    · rw [children, hfirst, rounds]
  · rw [if_pos hroot] at hfirst
    rw [hfirst] at hpeers hiputs hreach
    simp only [rootDist_ok hn hr, floorPow2_eq, hroot, bind, Except.bind, ne_eq,
      not_false_eq_true, if_true, if_false, pure, Except.pure, h1, recvFrom_ok hn hr,
      double_ok hn hr, int_ok hreach, getBackend_ok hparent, rounds]
    by_cases hleaf : c.nRanks ≤ dist c.nRanks c.root r + top (dist c.nRanks c.root r) * 2
    · have hempty : c.children r = [] := by
        rw [children, hfirst, rounds, targets, if_neg (by omega)]
      simp only [hleaf, decide_true, if_true]
      refine ⟨_, rfl, ?_, ?_, ?_⟩
      · rw [if_neg hroot]
      · rw [hempty]
      · rw [hempty]
        rfl
    · simp only [hleaf, decide_false, Bool.false_eq_true, if_false, hpeers, hiputs]
      refine ⟨_, rfl, ?_, ?_, ?_⟩
      · rw [if_neg hroot]
      · rw [children, hfirst, rounds]
      · rw [children, hfirst, rounds]

end Call
end TorchComms.Algos.Broadcast
