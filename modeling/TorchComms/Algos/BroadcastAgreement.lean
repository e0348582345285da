import TorchComms.Algos.BroadcastPhases

/-! # The tree that all ranks agree on

The executions of the ranks form one spanning tree. The plan of a rank has what its execution looks
for as long as the backend that the plan asks about is of the kind of the parent's.
-/
namespace TorchComms.Algos.Broadcast

open Mapper Foundation Foundation.BinomialTree

namespace Exec

variable (e : Exec)

def parentRank : Option ℕ := e.parent.map Prod.fst

def children : List ℕ := e.iputs.map Prod.fst

/-- The parents for which the execution looks for a kernel element, at most one. -/
def kernelWaits : List ℕ := (e.parent.toList.filter fun x => x.2.needed).map Prod.fst

/-- The children for which the execution looks for a kernel element. -/
def kernelPuts : List ℕ := (e.iputs.filter fun x => x.2.needed).map Prod.fst

end Exec

@[simp] theorem needed_lookUp {α : Type} (map : List (ℕ × α)) (needed : Bool) (peer : ℕ) :
    (lookUp map needed peer).needed = needed := by
  unfold lookUp
  cases needed with
  | false => rfl
  | true =>
    simp only [if_true]
    split <;> rfl

namespace Call

/-- The ranks form one tree that spans them all and has the root for its root, and every rank has
planned the kernel elements that it looks for, and no others. -/
structure Agrees (c : Call) (plan : ℕ → Plan) (exec : ℕ → Exec) : Prop where
  mutually : ∀ p < c.nRanks, ∀ k < c.nRanks,
    k ∈ (exec p).children ↔ (exec k).parentRank = some p
  children_lt : ∀ p < c.nRanks, ∀ k ∈ (exec p).children, k < c.nRanks
  nodup : ∀ p < c.nRanks, (exec p).children.Nodup
  handles : ∀ p < c.nRanks, (exec p).irecvCtrl = (exec p).children
  root : (exec c.root).parentRank = none
  nonroot : ∀ k < c.nRanks, k ≠ c.root → ∃ p < c.nRanks, (exec k).parentRank = some p
  reaches : ∀ r < c.nRanks,
    Relation.ReflTransGen (fun a b => (exec a).parentRank = some b) r c.root
  waits : ∀ r < c.nRanks, (plan r).waitNotifyMap.map Prod.fst = (exec r).kernelWaits
  posted : ∀ r < c.nRanks, (plan r).waitNotifyList = ((plan r).waitNotifyMap.filter fun x =>
    requiresPostRecvNotify (c.backend r x.1)).map Prod.snd
  puts : ∀ r < c.nRanks, (plan r).putNotifyMap.map Prod.fst = (exec r).kernelPuts

/-- Both phases run through on all ranks and agree. -/
def Spans (c : Call) : Prop :=
  ∃ plan exec, (∀ r < c.nRanks, c.plan r = .ok (plan r) ∧ c.impl (plan r) r = .ok (exec r)) ∧
    c.Agrees plan exec

/-- What the receive over a backend takes: no kernel element, or one, posted to the kernel or
not. -/
def recvKind (b : CtranMapperBackend) : Option Bool :=
  if requiresRecvNotify b then some (requiresPostRecvNotify b) else none

/-- What the plan asks about is of the kind of the parent's backend. Nothing is planned when there
is nothing to send. -/
def PlansRecv (c : Call) (r : ℕ) : Prop :=
  if c.sendSize = 0 then recvKind (c.backend r (c.parent r)) = none
  else ∃ b, c.getBackend r c.peerRank = .ok b ∧ recvKind b = recvKind (c.backend r (c.parent r))

structure Plannable (c : Call) : Prop where
  ranks : c.nRanks ≤ maxRanks
  recv : c.isDevice → ∀ r < c.nRanks, r ≠ c.root → c.PlansRecv r
  put : c.isDevice → c.sendSize = 0 → ∀ r < c.nRanks, r ≠ c.root →
    c.backend (c.parent r) r ≠ .NVL

variable {c : Call} {r : ℕ} {plan : Plan} {e : Exec}

/-! ### The tree -/

section

variable (h : c.Executed plan r e)
include h

theorem Executed.parentRank : e.parentRank = if r = c.root then none else some (c.parent r) := by
  unfold Exec.parentRank
  rw [h.parent]
  split <;> rfl

theorem Executed.children : e.children = c.children r := by
  unfold Exec.children
  rw [h.iputs, List.map_map]
  exact List.map_id _

theorem Executed.kernelWaits :
    e.kernelWaits = if r ≠ c.root ∧ c.isDevice ∧ requiresRecvNotify (c.backend r (c.parent r)) then
      [c.parent r] else [] := by
  unfold Exec.kernelWaits
  rw [h.parent]
  by_cases hroot : r = c.root
  · simp [hroot]
  · by_cases hneeded : c.isDevice ∧ requiresRecvNotify (c.backend r (c.parent r))
    · simp [hroot, hneeded]
    · simp [hroot, hneeded]

theorem Executed.kernelPuts :
    e.kernelPuts = if c.isDevice then c.nvlOnly r (c.children r) else [] := by
  unfold Exec.kernelPuts nvlOnly
  rw [h.iputs, List.filter_map, List.map_map]
  cases c.isDevice with
  | false => simp [Function.comp_def]
  | true => simp [Function.comp_def]

end

/-- The executions of all ranks, each with a plan of its own. -/
def AllExecuted (c : Call) (plan : ℕ → Plan) (exec : ℕ → Exec) : Prop :=
  ∀ r < c.nRanks, c.Executed (plan r) r (exec r)

variable {exec : ℕ → Exec}

theorem AllExecuted.mutually {plan : ℕ → Plan} (hn : c.nRanks ≤ maxRanks)
    (h : c.AllExecuted plan exec) {p k : ℕ} (hp : p < c.nRanks) (hk : k < c.nRanks) :
    k ∈ (exec p).children ↔ (exec k).parentRank = some p := by
  rw [(h p hp).children, (h k hk).parentRank, mem_children hn hp hk]
  by_cases hroot : k = c.root
  · simp [hroot]
  · simp [hroot]

theorem AllExecuted.reaches {plan : ℕ → Plan} (h : c.AllExecuted plan exec) (hr : r < c.nRanks) :
    Relation.ReflTransGen (fun a b => (exec a).parentRank = some b) r c.root := by
  apply Relation.ReflTransGen.mono _ _ _ (reaches_root c.root_lt hr)
  rintro a b ⟨ha, hne, rfl⟩
  rw [(h a ha).parentRank, if_neg hne]
  rfl

/-! ### The plans -/

/-- What the plan of a rank has to do with the execution of the rank. -/
structure Planned (c : Call) (r : ℕ) (plan : Plan) : Prop where
  waits : plan.waitNotifyMap.map Prod.fst =
    if r ≠ c.root ∧ c.isDevice ∧ requiresRecvNotify (c.backend r (c.parent r)) then
      [c.parent r] else []
  posted : plan.waitNotifyList = (plan.waitNotifyMap.filter fun x =>
    requiresPostRecvNotify (c.backend r x.1)).map Prod.snd
  puts : plan.putNotifyMap.map Prod.fst = if c.isDevice then c.nvlOnly r (c.children r) else []

theorem agrees_of_planned {plan : ℕ → Plan} (hn : c.nRanks ≤ maxRanks)
    (h : c.AllExecuted plan exec) (hplan : ∀ r < c.nRanks, c.Planned r (plan r)) :
    c.Agrees plan exec where
  mutually _ hp _ hk := h.mutually hn hp hk
  children_lt p hp k hk := by
    rw [(h p hp).children] at hk
    exact lt_of_mem_children hn hk
  nodup p hp := by
    rw [(h p hp).children]
    exact nodup_children hn hp
  handles p hp := by rw [(h p hp).irecvCtrl, (h p hp).children]
  root := by rw [(h _ c.root_lt).parentRank, if_pos rfl]
  nonroot k hk hne := by
    rw [(h k hk).parentRank, if_neg hne]
    exact ⟨_, (dist_parentOf c.root_lt hk).1, rfl⟩
  reaches _ hr := h.reaches hr
  waits r hr := by rw [(hplan r hr).waits, (h r hr).kernelWaits]
  posted r hr := (hplan r hr).posted
  puts r hr := by rw [(hplan r hr).puts, (h r hr).kernelPuts]

theorem planned_of_agrees {plan : ℕ → Plan} (h : c.AllExecuted plan exec)
    (hagrees : c.Agrees plan exec) (hr : r < c.nRanks) : c.Planned r (plan r) where
  waits := by rw [hagrees.waits r hr, (h r hr).kernelWaits]
  posted := hagrees.posted r hr
  puts := by rw [hagrees.puts r hr, (h r hr).kernelPuts]

theorem plannedRecv_iff {b : CtranMapperBackend} (hdev : c.isDevice) (hroot : r ≠ c.root)
    (h : c.PlannedRecv r b plan) (hputs : c.PlannedPuts r plan) :
    c.Planned r plan ↔ recvKind b = recvKind (c.backend r (c.parent r)) := by
  constructor
  · intro hplan
    have hwaits := hplan.waits
    have hposted := hplan.posted
    rw [h.map] at hwaits hposted
    rw [h.list] at hposted
    unfold recvKind
    cases hb : requiresRecvNotify b <;>
      cases hb' : requiresRecvNotify (c.backend r (c.parent r)) <;>
      simp_all
    cases hq : requiresPostRecvNotify b <;>
      cases hq' : requiresPostRecvNotify (c.backend r (c.parent r)) <;>
      simp_all
  · intro hkind
    unfold recvKind at hkind
    constructor
    · rw [h.map]
      cases hb : requiresRecvNotify b <;>
        cases hb' : requiresRecvNotify (c.backend r (c.parent r)) <;>
        simp_all
    · rw [h.map, h.list]
      cases hb : requiresRecvNotify b <;>
        cases hb' : requiresRecvNotify (c.backend r (c.parent r)) <;>
        simp_all
      cases hq' : requiresPostRecvNotify (c.backend r (c.parent r)) <;> simp_all
    · rw [hputs, hdev, if_pos rfl, List.map_map]
      exact List.map_id _

theorem planned_root (hdev : c.isDevice) (hputs : c.PlannedPuts c.root plan)
    (hmap : plan.waitNotifyMap = []) (hlist : plan.waitNotifyList = []) :
    c.Planned c.root plan where
  waits := by simp [hmap]
  posted := by simp [hmap, hlist]
  puts := by
    rw [hputs, hdev, if_pos rfl, List.map_map]
    exact List.map_id _

theorem planned_empty_iff : c.Planned r {} ↔ (c.isDevice →
    (r ≠ c.root → recvKind (c.backend r (c.parent r)) = none) ∧
      ∀ k ∈ c.children r, c.backend r k ≠ .NVL) := by
  have hkind : recvKind (c.backend r (c.parent r)) = none ↔
      requiresRecvNotify (c.backend r (c.parent r)) = false := by
    unfold recvKind
    split <;> simp_all
  constructor
  · intro h hdev
    have hwaits := h.waits
    have hputs := h.puts
    constructor
    · intro hroot
      rw [hkind]
      by_contra hne
      simp [hdev, hroot, hne] at hwaits
    · intro k hk hnvl
      rw [hdev, if_pos rfl] at hputs
      have hmem : k ∈ c.nvlOnly r (c.children r) := List.mem_filter.mpr ⟨hk, by simpa using hnvl⟩
      rw [← hputs] at hmem
      exact absurd hmem List.not_mem_nil
  · intro h
    constructor
    · by_cases hdev : c.isDevice
      · by_cases hroot : r = c.root
        · simp [hroot]
        · have hnone := hkind.mp ((h hdev).1 hroot)
          simp [hnone]
      · simp [hdev]
    · rfl
    · by_cases hdev : c.isDevice
      · rw [hdev, if_pos rfl]
        apply Eq.symm
        apply List.filter_eq_nil_iff.mpr
        intro k hk
        simpa using (h hdev).2 k hk
      · simp [hdev]

/-! ### Too many ranks -/

theorem recvCtrls_of_next_error {d fuel sendOffset : ℕ} {e : Fault}
    (hreach : d + sendOffset < 2 ^ 31) (hlt : d + sendOffset < c.nRanks)
    (h : int (sendOffset * 2) = .error e ∨
      int (sendOffset * 2) = .ok (sendOffset * 2) ∧
        c.recvCtrls r d fuel (sendOffset * 2) = .error e) :
    ∃ e, c.recvCtrls r d (fuel + 1) sendOffset = .error e := by
  rw [recvCtrls, int_ok hreach]
  simp only [bind, Except.bind, hlt, if_true]
  cases int (r + sendOffset) with
  | error e => exact ⟨e, rfl⟩
  | ok rank =>
    use e
    rcases h with h | ⟨h, hrest⟩
    · rw [h]
    · rw [h]
      simp only [hrest]

theorem recvCtrls_overflow (hn : maxRanks < c.nRanks) (m j fuel : ℕ) (h : j + m = 30) :
    ∃ e, c.recvCtrls r 0 fuel (2 ^ j) = .error e := by
  unfold maxRanks at hn
  induction m generalizing j fuel with
  | zero =>
    obtain rfl : j = 30 := by omega
    cases fuel with
    | zero => exact ⟨_, rfl⟩
    | succ fuel =>
      apply recvCtrls_of_next_error (by omega) (by omega)
      exact .inl (if_neg (by omega))
  | succ m ih =>
    cases fuel with
    | zero => exact ⟨_, rfl⟩
    | succ fuel =>
      have hpow : 2 ^ j ≤ 2 ^ 29 := Nat.pow_le_pow_right (by omega) (by omega)
      obtain ⟨e, he⟩ := ih (j + 1) fuel (by omega)
      rw [pow_succ] at he
      apply recvCtrls_of_next_error (by omega) (by omega)
      exact .inr ⟨int_ok (by omega), he⟩

theorem impl_overflow (hn : maxRanks < c.nRanks) (plan : Plan) :
    ∃ e, c.impl plan c.root = .error e := by
  have hlt := c.nRanks_lt
  have hdist : c.rootDist c.root = .ok 0 := by
    rw [rootDist, int_ok (by omega), Nat.add_sub_cancel_left]
    simp only [bind, Except.bind, pure, Except.pure, Nat.mod_self]
  have h1 : c.nRanks ≠ 1 := by
    unfold maxRanks at hn
    omega
  obtain ⟨e, he⟩ := recvCtrls_overflow (r := c.root) hn 30 0 rounds rfl
  rw [pow_zero] at he
  rw [impl]
  simp only [hdist, bind, Except.bind, if_true, ne_eq, not_true_eq_false, if_false, pure,
    Except.pure, h1, Bool.false_eq_true, he]
  cases c.recvFrom c.root (floorPow2 0) with
  | error e => exact ⟨e, rfl⟩
  | ok parent => exact ⟨e, rfl⟩

theorem le_maxRanks_of_spans (h : c.Spans) : c.nRanks ≤ maxRanks := by
  obtain ⟨plan, exec, hrun, _⟩ := h
  by_contra hn
  obtain ⟨e, he⟩ := impl_overflow (Nat.lt_of_not_le hn) (plan c.root)
  rw [(hrun c.root c.root_lt).2] at he
  cases he

/-! ### A single rank -/

theorem run_single (h1 : c.nRanks = 1) (hr : r < c.nRanks) :
    c.plan r = .ok {} ∧ c.impl {} r = .ok {} := by
  have hroot : c.root = 0 := by
    have := c.root_lt
    omega
  have hn : c.nRanks ≤ maxRanks := by
    unfold maxRanks
    omega
  obtain rfl : r = 0 := by omega
  constructor
  · unfold Call.plan
    split
    · exact setupPlan_empty hn hr (.inr h1)
    · rfl
  · rw [impl]
    simp only [rootDist_ok hn hr, hroot, bind, Except.bind, if_true, ne_eq, not_true_eq_false,
      if_false, pure, Except.pure, h1]

theorem spans_single (h1 : c.nRanks = 1) : c.Spans := by
  have hroot : c.root = 0 := by
    have := c.root_lt
    omega
  refine ⟨fun _ => {}, fun _ => {}, fun r hr => run_single h1 hr, ?_⟩
  constructor
  · intro p _ k _
    exact ⟨fun h => absurd h List.not_mem_nil, fun h => by cases h⟩
  · exact fun _ _ _ h => absurd h List.not_mem_nil
  · exact fun _ _ => List.nodup_nil
  · exact fun _ _ => rfl
  · rfl
  · intro k hk hne
    omega
  · intro r hr
    obtain rfl : r = c.root := by omega
    exact .refl
  · exact fun _ _ => rfl
  · exact fun _ _ => rfl
  · exact fun _ _ => rfl

/-! ### Both phases -/

theorem spans_iff_planned (hn : c.nRanks ≤ maxRanks) (h1 : c.nRanks ≠ 1) :
    c.Spans ↔ ∀ r < c.nRanks, ∃ plan, c.plan r = .ok plan ∧ c.Planned r plan := by
  constructor
  · rintro ⟨plan, exec, hrun, hagrees⟩ r hr
    have hexec : c.AllExecuted plan exec := by
      intro k hk
      obtain ⟨e, he, hexec⟩ := impl_ok hn hk h1 (plan k)
      rw [(hrun k hk).2] at he
      cases he
      exact hexec
    exact ⟨plan r, (hrun r hr).1, planned_of_agrees hexec hagrees hr⟩
  · intro h
    choose! plan hplan using h
    have hexec : ∀ r < c.nRanks, ∃ e, c.impl (plan r) r = .ok e ∧ c.Executed (plan r) r e :=
      fun r hr => impl_ok hn hr h1 (plan r)
    choose! exec hexec using hexec
    refine ⟨plan, exec, fun r hr => ⟨(hplan r hr).1, (hexec r hr).1⟩, ?_⟩
    apply agrees_of_planned hn
    · exact fun r hr => (hexec r hr).2
    · exact fun r hr => (hplan r hr).2

theorem planned_iff (hn : c.nRanks ≤ maxRanks) (h1 : c.nRanks ≠ 1) (hr : r < c.nRanks) :
    (∃ plan, c.plan r = .ok plan ∧ c.Planned r plan) ↔
      (c.isDevice → (r ≠ c.root → c.PlansRecv r) ∧
        (c.sendSize = 0 → ∀ k ∈ c.children r, c.backend r k ≠ .NVL)) := by
  by_cases hdev : c.isDevice
  · have hplan : c.plan r = c.setupPlan r := if_pos hdev
    rw [hplan]
    by_cases hsize : c.sendSize = 0
    · rw [setupPlan_empty hn hr (.inl hsize)]
      simp only [Except.ok.injEq, exists_eq_left', planned_empty_iff, PlansRecv, hsize, if_true,
        forall_const]
    · simp only [hdev, hsize, forall_const, false_implies, and_true, PlansRecv, if_false]
      by_cases hroot : r = c.root
      · subst hroot
        obtain ⟨plan, hok, hputs, hmap, hlist⟩ := setupPlan_root hn hsize h1
        constructor
        · exact fun _ h => absurd rfl h
        · exact fun _ => ⟨plan, hok, planned_root hdev hputs hmap hlist⟩
      · cases hb : c.getBackend r c.peerRank with
        | error e =>
          rw [setupPlan_error hn hr hroot hsize hb]
          constructor
          · rintro ⟨_, h, _⟩
            cases h
          · intro h
            obtain ⟨_, h, _⟩ := h hroot
            cases h
        | ok b =>
          obtain ⟨plan, hok, hputs, hrecv⟩ := setupPlan_ok hn hr hroot hsize hb
          have hiff := plannedRecv_iff hdev hroot hrecv hputs
          constructor
          · rintro ⟨plan', h, hplanned⟩ _
            rw [hok] at h
            cases h
            exact ⟨b, rfl, hiff.mp hplanned⟩
          · intro h
            obtain ⟨b', hb', hkind⟩ := h hroot
            cases hb'
            exact ⟨plan, hok, hiff.mpr hkind⟩
  · have hplan : c.plan r = .ok {} := if_neg hdev
    rw [hplan]
    constructor
    · exact fun _ h => absurd h hdev
    · exact fun _ => ⟨{}, rfl, planned_empty_iff.mpr fun h => absurd h hdev⟩

/-- All ranks derive one spanning tree, and have planned the kernel elements for it, if and only if
the number of ranks does not overflow the distances, and what the plans ask about is of the kind of
the parents' backends. -/
theorem spans_iff : c.Spans ↔ c.nRanks = 1 ∨ c.Plannable := by
  by_cases h1 : c.nRanks = 1
  · exact ⟨fun _ => .inl h1, fun _ => spans_single h1⟩
  · rw [or_iff_right h1]
    constructor
    · intro h
      have hn := le_maxRanks_of_spans h
      have hplanned := fun r hr => (planned_iff hn h1 hr).mp ((spans_iff_planned hn h1).mp h r hr)
      constructor
      · exact hn
      · exact fun hdev r hr => (hplanned r hr hdev).1
      · intro hdev hsize k hk hne
        have hparent : c.parent k < c.nRanks := (dist_parentOf c.root_lt hk).1
        apply (hplanned (c.parent k) hparent hdev).2 hsize
        exact (mem_children hn hparent hk).mpr ⟨hne, rfl⟩
    · intro h
      apply (spans_iff_planned h.ranks h1).mpr
      intro r hr
      apply (planned_iff h.ranks h1 hr).mpr
      intro hdev
      constructor
      · exact h.recv hdev r hr
      · intro hsize k hk
        have hlt := lt_of_mem_children h.ranks hk
        obtain ⟨hne, rfl⟩ := (mem_children h.ranks hr hlt).mp hk
        exact h.put hdev hsize k hlt hne

/-- Four ranks on two nodes, with NVLink inside a node and InfiniBand between them, and the root on
the second node. -/
def twoNodes : Call where
  nRanks := 4
  root := 2
  root_lt := by omega
  nRanks_lt := by omega
  count := 1024
  typeSize := 4
  isDevice := true
  recvbuff := fun r => 4096 * r
  localRank := fun r => r % 2
  backends := fun r => ⟨some fun peer => peer.val / 2 = r / 2, true, false, false⟩
  NVL_BROADCAST_CHUNK_SIZE := 131072
  NVL_BROADCAST_MAX_NUM_THREAD_BLOCKS := 32
  threadBlockSize := 640
  UNPACK_NUM_THREAD_BLOCKS := 8
  UNPACK_THREAD_BLOCK_SIZE := 256

/-- Rank 3 receives from rank 2 over NVLink, but its plan asks about rank 0, which it reaches over
InfiniBand, and prepares nothing. -/
theorem not_spans_twoNodes : ¬ twoNodes.Spans := by
  rintro ⟨plan, exec, hrun, hagrees⟩
  obtain ⟨hplan, hexec⟩ := hrun 3 (by decide)
  have hwaits := hagrees.waits 3 (by decide)
  have hnothing : (twoNodes.plan 3).map (fun p => p.waitNotifyMap.map Prod.fst) = .ok [] := by
    decide +kernel
  have hlooks : (twoNodes.plan 3 >>= fun p => twoNodes.impl p 3).map Exec.kernelWaits =
      .ok [2] := by
    decide +kernel
  rw [hplan] at hnothing hlooks
  have hlooks' : (twoNodes.impl (plan 3) 3).map Exec.kernelWaits = .ok [2] := hlooks
  rw [hexec] at hlooks'
  have hplanned : (plan 3).waitNotifyMap.map Prod.fst = [] := Except.ok.inj hnothing
  have hlooked : (exec 3).kernelWaits = [2] := Except.ok.inj hlooks'
  rw [hplanned, hlooked] at hwaits
  cases hwaits

end Call
end TorchComms.Algos.Broadcast
