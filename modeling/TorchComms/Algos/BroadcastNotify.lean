import TorchComms.Algos.BroadcastAgreement

/-! # The notification of the parent

What `setupPlan` holds for the notification of the parent against the branch of `impl` that waits
for it. They are asked about different ranks, and agree as long as the answers do.
-/
namespace TorchComms.Algos.Broadcast

open Mapper Foundation Foundation.BinomialTree

/-- The plan holds an element for exactly the ranks on whose notification the execution waits, and
every element that is looked for is found. -/
structure Notified (plan : Plan) (e : Exec) : Prop where
  planned : ∀ p, p ∈ plan.waitNotifyMap.map Prod.fst ↔ p ∈ e.kernelWaits
  found : ∀ x ∈ e.parent, x.2 ≠ .missing

namespace Call

/-- Both phases run through on every rank, with the notification planned where it is used. -/
def NotifiesParents (c : Call) : Prop :=
  ∀ r < c.nRanks, ∃ plan e, c.plan r = .ok plan ∧ c.impl plan r = .ok e ∧ Notified plan e

/-- The plan asks about a backend whose receives are notified just when the parent's are. It asks
about none when there is nothing to send. -/
def AsksAlike (c : Call) (r : ℕ) : Prop :=
  if c.sendSize = 0 then requiresRecvNotify (c.backend r (c.parent r)) = false
  else ∃ b, c.getBackend r c.peerRank = .ok b ∧
    requiresRecvNotify b = requiresRecvNotify (c.backend r (c.parent r))

variable {c : Call} {r : ℕ} {plan : Plan} {e : Exec} {b : Bool} {w : WaitNotify}

theorem Executed.mem_kernelWaits (h : c.Executed plan r e) (p : ℕ) : p ∈ e.kernelWaits ↔
    (r ≠ c.root ∧ c.isDevice ∧ requiresRecvNotify (c.backend r (c.parent r))) ∧ p = c.parent r := by
  rw [h.kernelWaits]
  split
  · rename_i hwaits
    simp [hwaits]
  · rename_i hnot
    simp [hnot]

theorem notified_iff (h : c.Executed plan r e)
    (hmap : plan.waitNotifyMap = if b then [(c.parent r, w)] else []) :
    Notified plan e ↔ (b = true ↔
      r ≠ c.root ∧ c.isDevice ∧ requiresRecvNotify (c.backend r (c.parent r))) := by
  have hkeys : ∀ p, p ∈ plan.waitNotifyMap.map Prod.fst ↔ b = true ∧ p = c.parent r := by
    intro p
    rw [hmap]
    cases b with
    | false => simp
    | true => simp
  constructor
  · intro hnotified
    have hparent := hnotified.planned (c.parent r)
    rw [hkeys, h.mem_kernelWaits] at hparent
    simpa only [and_true] using hparent
  · intro hiff
    constructor
    · intro p
      rw [hkeys, h.mem_kernelWaits, hiff]
    · intro x hx
      rw [h.parent] at hx
      by_cases hroot : r = c.root
      · simp [hroot] at hx
      · rw [if_neg hroot, Option.mem_def, Option.some.injEq] at hx
        subst hx
        by_cases hneeded : c.isDevice ∧ requiresRecvNotify (c.backend r (c.parent r))
        · have hasked := hiff.mpr ⟨hroot, hneeded⟩
          simp [lookUp, hneeded, hmap, hasked]
        · simp [lookUp, hneeded]

theorem notified_empty_iff (h : c.Executed {} r e) : Notified {} e ↔
    (c.isDevice → r ≠ c.root → requiresRecvNotify (c.backend r (c.parent r)) = false) := by
  rw [notified_iff (b := false) (w := c.waitElem r) h rfl]
  constructor
  · intro hiff hdev hroot
    by_contra hne
    have hasked := hiff.mpr ⟨hroot, hdev, by simpa using hne⟩
    cases hasked
  · intro hnone
    constructor
    · intro hasked
      cases hasked
    · rintro ⟨hroot, hdev, hneeded⟩
      rw [hnone hdev hroot] at hneeded
      exact hneeded

theorem notifiesParent_iff (hn : c.nRanks ≤ maxRanks) (h1 : c.nRanks ≠ 1) (hr : r < c.nRanks) :
    (∃ plan e, c.plan r = .ok plan ∧ c.impl plan r = .ok e ∧ Notified plan e) ↔
      (c.isDevice → r ≠ c.root → c.AsksAlike r) := by
  -- the execution of a plan is determined, so that only the plan is to be found
  have hexec : ∀ plan, c.plan r = .ok plan → ∃ e, c.Executed plan r e ∧
      ((∃ plan e, c.plan r = .ok plan ∧ c.impl plan r = .ok e ∧ Notified plan e) ↔
        Notified plan e) := by
    intro plan hplan
    obtain ⟨e, he, hexec⟩ := impl_ok hn hr h1 plan
    refine ⟨e, hexec, ?_, fun h => ⟨plan, e, hplan, he, h⟩⟩
    rintro ⟨plan', e', hplan', he', h⟩
    rw [hplan, Except.ok.injEq] at hplan'
    subst hplan'
    rw [he, Except.ok.injEq] at he'
    subst he'
    exact h
  by_cases hdev : c.isDevice
  · have hplan : c.plan r = c.setupPlan r := if_pos hdev
    by_cases hsize : c.sendSize = 0
    · obtain ⟨e, hexec, hiff⟩ := hexec {} (hplan.trans (setupPlan_empty hn hr (.inl hsize)))
      rw [hiff, notified_empty_iff hexec]
      simp only [AsksAlike, hsize, if_true]
    · simp only [AsksAlike, hsize, if_false, hdev, forall_const]
      by_cases hroot : r = c.root
      · subst hroot
        obtain ⟨plan, hok, _, hmap, _⟩ := setupPlan_root hn hsize h1
        obtain ⟨e, hexec, hiff⟩ := hexec plan (hplan.trans hok)
        rw [hiff, notified_iff (b := false) (w := c.waitElem c.root) hexec hmap]
        simp
      · cases hb : c.getBackend r c.peerRank with
        | error f =>
          rw [hplan, setupPlan_error hn hr hroot hsize hb]
          constructor
          · rintro ⟨_, _, h, _⟩
            cases h
          · intro h
            obtain ⟨_, h, _⟩ := h hroot
            cases h
        | ok b =>
          obtain ⟨plan, hok, _, hrecv⟩ := setupPlan_ok hn hr hroot hsize hb
          obtain ⟨e, hexec, hiff⟩ := hexec plan (hplan.trans hok)
          rw [hiff, notified_iff hexec hrecv.map]
          simp only [hroot, hdev, not_false_eq_true, ne_eq, true_and, forall_const,
            Except.ok.injEq, exists_eq_left', Bool.coe_iff_coe]
  · have hplan : c.plan r = .ok {} := if_neg hdev
    obtain ⟨e, hexec, hiff⟩ := hexec {} hplan
    rw [hiff, notified_empty_iff hexec]
    constructor
    · exact fun _ h => absurd h hdev
    · exact fun _ h => absurd h hdev

/-- The plans have the notifications of the parents that the executions wait for, and no others, if
and only if the distances do not overflow and the ranks in the upper half of `count` are notified
like the parents. -/
theorem notifiesParents_iff : c.NotifiesParents ↔ c.nRanks = 1 ∨ c.nRanks ≤ maxRanks ∧
    (c.isDevice → ∀ r < c.nRanks, r ≠ c.root → c.AsksAlike r) := by
  by_cases h1 : c.nRanks = 1
  · refine ⟨fun _ => .inl h1, fun _ r hr => ?_⟩
    obtain ⟨hplan, himpl⟩ := run_single h1 hr
    refine ⟨{}, {}, hplan, himpl, fun p => Iff.rfl, ?_⟩
    intro x hx
    cases hx
  · rw [or_iff_right h1]
    constructor
    · intro h
      have hn : c.nRanks ≤ maxRanks := by
        by_contra hn
        obtain ⟨plan, e, _, he, _⟩ := h c.root c.root_lt
        obtain ⟨f, hf⟩ := impl_overflow (Nat.lt_of_not_le hn) plan
        rw [hf] at he
        cases he
      exact ⟨hn, fun hdev r hr => (notifiesParent_iff hn h1 hr).mp (h r hr) hdev⟩
    · rintro ⟨hn, h⟩ r hr
      exact (notifiesParent_iff hn h1 hr).mpr fun hdev => h hdev r hr

/-- On two nodes rank 3 waits for a notification of rank 2, and its plan, which asks about rank 0,
holds none. -/
theorem not_notifiesParents_twoNodes : ¬ ∀ c : Call, c.NotifiesParents := by
  intro hall
  obtain ⟨plan, e, hplan, he, hnotified⟩ := hall twoNodes 3 (by decide)
  have hnothing : (twoNodes.plan 3).map (fun p => p.waitNotifyMap.map Prod.fst) = .ok [] := by
    decide +kernel
  have hlooks : (twoNodes.plan 3 >>= fun p => twoNodes.impl p 3).map Exec.kernelWaits =
      .ok [2] := by
    decide +kernel
  rw [hplan] at hnothing hlooks
  have hlooks' : (twoNodes.impl plan 3).map Exec.kernelWaits = .ok [2] := hlooks
  rw [he] at hlooks'
  have hplanned : plan.waitNotifyMap.map Prod.fst = [] := Except.ok.inj hnothing
  have hlooked : e.kernelWaits = [2] := Except.ok.inj hlooks'
  have hmem := hnotified.planned 2
  rw [hplanned, hlooked] at hmem
  exact absurd (hmem.mpr List.mem_cons_self) List.not_mem_nil

end Call
end TorchComms.Algos.Broadcast
