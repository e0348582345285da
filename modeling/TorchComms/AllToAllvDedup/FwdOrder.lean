import TorchComms.AllToAllvDedup.FwdSlots

/-! # The receiver, and the order of the chunks

The receiver finds the flags of a chunk set by the step that it is at, reads that step and unsets the
flags again. A run that comes to an end has brought every chunk of every group to the receiver.
-/
namespace TorchComms.AllToAllvDedup
open Function

namespace FwdState

variable {β : Type} {c : FwdConfig} {chunk : ℕ → ℕ → Cell → β} {s t : FwdState β} {g w i j : ℕ}

namespace Slots

section

variable (h : Slots c chunk s) (hc : Consumed c chunk s)
include h hc

variable {got : Cell → Option β} {left : Finset ℕ}

theorem loadFlag
    (hleft : left ⊆ Finset.range c.numWorkers) (hwait : s.receiver = .waitPost left) (hw : w ∈ left)
    (hflag : s.flags (c.getTmpChunkIdx s.recvStep, w) = .kPosted) :
    Slots c chunk { s with receiver := .waitPost (left.erase w) } ∧
      Consumed c chunk { s with receiver := .waitPost (left.erase w) } := by
  have hlt : w < c.numWorkers := Finset.mem_range.mp (hleft hw)
  have hCleared : ∀ j v, s.Cleared j v ↔ j < s.recvStep := by
    intro j v
    unfold Cleared
    rw [hwait]
    simp [Receiver.Unset]
  have hposted : s.recvStep < s.remRecvSteps ∧ s.Posted s.recvStep w := by
    obtain ⟨j, hj, hidx, hposted, hcleared⟩ := h.flag _ w hlt hflag
    rw [hCleared] at hcleared
    rcases Nat.lt_or_eq_of_le (Nat.not_lt.mp hcleared) with hlater | rfl
    · have hback := h.past j hj w hlt (.inl hposted) s.recvStep hlater hidx.symm
      rw [hCleared] at hback
      exact absurd hback (Nat.lt_irrefl _)
    · exact ⟨hj, hposted⟩
  constructor
  · constructor
    · intro j hj v hv hp hcleared
      refine h.posted j hj v hv hp fun hc => hcleared ?_
      exact .inl ((hCleared j v).mp hc)
    · intro x v hv hx
      obtain ⟨j, hj, hidx, hp, hcleared⟩ := h.flag x v hv hx
      refine ⟨j, hj, hidx, hp, ?_⟩
      rintro (hc | ⟨_, hc⟩)
      · exact hcleared (.inl hc)
      · exact hc
    · intro j hj v hv hp i hij hidx
      exact .inl ((hCleared i v).mp (h.past j hj v hv hp i hij hidx))
    · rintro v hv j (hlt | ⟨rfl, hsaw⟩)
      · exact h.seen v hv j (.inl hlt)
      · by_cases hvw : v = w
        · subst hvw
          exact hposted
        · refine h.seen v hv _ (.inr ⟨rfl, ?_⟩)
          rw [hwait]
          intro hmem
          exact hsaw (Finset.mem_erase.mpr ⟨hvw, hmem⟩)
    · exact h.buffer
  · constructor
    · have hlength := hc.length
      rw [hwait] at hlength
      exact hlength
    · exact hc.content
    · intro left got hr
      cases hr

theorem allPosted
    (hwait : s.receiver = .waitPost ∅) :
    Slots c chunk { s with receiver := .copy c.allCells fun _ => none } ∧
      Consumed c chunk { s with receiver := .copy c.allCells fun _ => none } := by
  constructor
  · constructor
    · intro j hj v hv hp hcleared
      refine h.posted j hj v hv hp fun hc => hcleared ?_
      rcases hc with hlt | ⟨_, hunset⟩
      · exact .inl hlt
      · rw [hwait] at hunset
        exact hunset.elim
    · intro x v hv hx
      obtain ⟨j, hj, hidx, hp, hcleared⟩ := h.flag x v hv hx
      refine ⟨j, hj, hidx, hp, ?_⟩
      rintro (hc | ⟨_, hc⟩)
      · exact hcleared (.inl hc)
      · exact hc
    · intro j hj v hv hp i hij hidx
      rcases h.past j hj v hv hp i hij hidx with hlt | ⟨_, hunset⟩
      · exact .inl hlt
      · rw [hwait] at hunset
        exact hunset.elim
    · rintro v hv j (hlt | ⟨rfl, _⟩)
      · exact h.seen v hv j (.inl hlt)
      · refine h.seen v hv _ (.inr ⟨rfl, ?_⟩)
        rw [hwait]
        exact Finset.notMem_empty v
    · exact h.buffer
  · constructor
    · have hlength := hc.length
      rw [hwait] at hlength
      exact hlength
    · exact hc.content
    · intro left got hr
      cases hr
      exact ⟨Finset.Subset.refl _, fun e he hne => absurd he hne⟩

theorem read {e : Cell} {left : Finset Cell} (hcopy : s.receiver = .copy left got) (he : e ∈ left) :
    let t : FwdState β := { s with
      receiver := .copy (left.erase e)
        (update got e (some (s.tmpRecvBuff (c.getTmpChunkIdx s.recvStep, e)))) }
    Slots c chunk t ∧ Consumed c chunk t := by
  intro t
  have hlength := hc.length
  rw [hcopy] at hlength
  have hlen : s.consumed.length = s.recvStep := hlength
  have hsaw : ∀ v, s.Seen s.recvStep v := fun v => .inr ⟨rfl, by rw [hcopy]; trivial⟩
  obtain ⟨hsub, hread⟩ := hc.reading left got hcopy
  have hCleared : ∀ j v, t.Cleared j v ↔ s.Cleared j v := by
    intro j v
    unfold Cleared
    rw [hcopy]
    rfl
  constructor
  · constructor
    · intro j hj v hv hp hcleared
      exact h.posted j hj v hv hp fun hc => hcleared ((hCleared j v).mpr hc)
    · intro x v hv hx
      obtain ⟨j, hj, hidx, hp, hcleared⟩ := h.flag x v hv hx
      exact ⟨j, hj, hidx, hp, fun hc => hcleared ((hCleared j v).mp hc)⟩
    · intro j hj v hv hp i hij hidx
      exact (hCleared i v).mpr (h.past j hj v hv hp i hij hidx)
    · rintro v hv j (hlt | ⟨rfl, _⟩)
      · exact h.seen v hv j (.inl hlt)
      · exact h.seen v hv _ (hsaw v)
    · exact h.buffer
  · constructor
    · exact hlength
    · exact hc.content
    · intro left' got' hr
      have hr : Receiver.copy (left.erase e)
        (update got e (some (s.tmpRecvBuff (c.getTmpChunkIdx s.recvStep, e)))) = .copy left' got' := hr
      cases hr
      constructor
      · exact (Finset.erase_subset _ _).trans hsub
      · intro e' he' hne
        by_cases heq : e' = e
        · subst heq
          obtain ⟨v, hv, hcell⟩ := FwdConfig.mem_allCells he'
          obtain ⟨hlt, hposted⟩ := h.seen v hv s.recvStep (hsaw v)
          rw [update_self]
          exact congrArg some (h.buffer _ hlt hlen.le v hv e' hcell (.inl hposted))
        · rw [update_of_ne heq]
          exact hread e' he' fun hmem => hne (Finset.mem_erase.mpr ⟨heq, hmem⟩)

theorem allRead (hcopy : s.receiver = .copy ∅ got) :
    let t : FwdState β := { s with
      receiver := .complete (Finset.range c.numWorkers), consumed := s.consumed ++ [got] }
    Slots c chunk t ∧ Consumed c chunk t := by
  intro t
  have hlength := hc.length
  rw [hcopy] at hlength
  have hlen : s.consumed.length = s.recvStep := hlength
  have hCleared : ∀ j, ∀ v < c.numWorkers, t.Cleared j v ↔ s.Cleared j v := by
    intro j v hv
    unfold Cleared
    rw [hcopy]
    simp [t, Receiver.Unset, hv]
  constructor
  · constructor
    · intro j hj v hv hp hcleared
      exact h.posted j hj v hv hp fun hc => hcleared ((hCleared j v hv).mpr hc)
    · intro x v hv hx
      obtain ⟨j, hj, hidx, hp, hcleared⟩ := h.flag x v hv hx
      exact ⟨j, hj, hidx, hp, fun hc => hcleared ((hCleared j v hv).mp hc)⟩
    · intro j hj v hv hp i hij hidx
      exact (hCleared i v hv).mpr (h.past j hj v hv hp i hij hidx)
    · rintro v hv j (hlt | ⟨rfl, _⟩)
      · exact h.seen v hv j (.inl hlt)
      · exact h.seen v hv _ (.inr ⟨rfl, by rw [hcopy]; trivial⟩)
    · intro j hj hlonger
      apply h.buffer j hj
      have : (s.consumed ++ [got]).length ≤ j := hlonger
      rw [List.length_append] at this
      omega
  · constructor
    · have : t.consumed.length = s.consumed.length + 1 := List.length_append
      rw [this, hlen]
      rfl
    · intro i got' hgot e he
      have hgot : (s.consumed ++ [got])[i]? = some got' := hgot
      rw [List.getElem?_append] at hgot
      split at hgot
      · exact hc.content i got' hgot e he
      · have hi : i = s.recvStep := by
          have := (List.getElem?_eq_some_iff.mp hgot).1
          rw [List.length_singleton] at this
          omega
        subst hi
        rw [hlen, Nat.sub_self] at hgot
        cases hgot
        exact (hc.reading ∅ _ hcopy).2 e he (Finset.notMem_empty e)
    · intro left got' hr
      cases hr

/-- The receiver unsets a flag that its own step has set. -/
theorem storeFlag
    (hleft : left ⊆ Finset.range c.numWorkers) (hcomplete : s.receiver = .complete left)
    (hw : w ∈ left) :
    let t : FwdState β := { s with
      receiver := .complete (left.erase w)
      flags := update s.flags (c.getTmpChunkIdx s.recvStep, w) .kUnset }
    Slots c chunk t ∧ Consumed c chunk t := by
  intro t
  have hlt : w < c.numWorkers := Finset.mem_range.mp (hleft hw)
  have hnot : ¬ s.Cleared s.recvStep w := by
    rintro (hlt | ⟨_, hunset⟩)
    · exact Nat.lt_irrefl _ hlt
    · rw [hcomplete] at hunset
      exact hunset hw
  have hCleared : ∀ j v, t.Cleared j v ↔ s.Cleared j v ∨ j = s.recvStep ∧ v = w := by
    intro j v
    unfold Cleared
    rw [hcomplete]
    by_cases hvw : v = w
    · subst hvw
      simp [t, Receiver.Unset]
      tauto
    · simp [t, Receiver.Unset, hvw]
  constructor
  · constructor
    · intro j hj v hv hp hcleared
      rw [hCleared, not_or] at hcleared
      by_cases haddr : (c.getTmpChunkIdx j, v) = (c.getTmpChunkIdx s.recvStep, w)
      · obtain ⟨hidx, rfl⟩ := Prod.mk.inj haddr
        exfalso
        rcases Nat.lt_trichotomy j s.recvStep with hbefore | heq | hafter
        · exact hcleared.1 (.inl hbefore)
        · exact hcleared.2 ⟨heq, rfl⟩
        · exact hnot (h.past j hj v hv (.inl hp) s.recvStep hafter hidx.symm)
      · have hsame : t.flags (c.getTmpChunkIdx j, v) = s.flags (c.getTmpChunkIdx j, v) :=
          update_of_ne haddr ..
        rw [hsame]
        exact h.posted j hj v hv hp hcleared.1
    · intro x v hv hx
      by_cases haddr : (x, v) = (c.getTmpChunkIdx s.recvStep, w)
      · have hself : t.flags (c.getTmpChunkIdx s.recvStep, w) = .kUnset := update_self ..
        rw [haddr, hself] at hx
        cases hx
      · have hsame : t.flags (x, v) = s.flags (x, v) := update_of_ne haddr ..
        rw [hsame] at hx
        obtain ⟨j, hj, rfl, hp, hcleared⟩ := h.flag x v hv hx
        refine ⟨j, hj, rfl, hp, ?_⟩
        rw [hCleared]
        rintro (hc | ⟨rfl, rfl⟩)
        · exact hcleared hc
        · exact haddr rfl
    · intro j hj v hv hp i hij hidx
      exact (hCleared i v).mpr (.inl (h.past j hj v hv hp i hij hidx))
    · rintro v hv j (hlt | ⟨rfl, _⟩)
      · exact h.seen v hv j (.inl hlt)
      · exact h.seen v hv _ (.inr ⟨rfl, by rw [hcomplete]; trivial⟩)
    · exact h.buffer
  · constructor
    · have hlength := hc.length
      rw [hcomplete] at hlength
      exact hlength
    · exact hc.content
    · intro left' got hr
      cases hr

theorem allUnset
    (hcomplete : s.receiver = .complete ∅) :
    let t : FwdState β := { s with
      receiver := .waitPost (Finset.range c.numWorkers), recvStep := s.recvStep + 1 }
    Slots c chunk t ∧ Consumed c chunk t := by
  intro t
  have hCleared : ∀ j v, t.Cleared j v ↔ s.Cleared j v := by
    intro j v
    unfold Cleared
    rw [hcomplete]
    simp only [t, Receiver.Unset, Finset.notMem_empty, not_false_eq_true, and_true, and_false,
      or_false]
    omega
  constructor
  · constructor
    · intro j hj v hv hp hcleared
      exact h.posted j hj v hv hp fun hc => hcleared ((hCleared j v).mpr hc)
    · intro x v hv hx
      obtain ⟨j, hj, hidx, hp, hcleared⟩ := h.flag x v hv hx
      exact ⟨j, hj, hidx, hp, fun hc => hcleared ((hCleared j v).mp hc)⟩
    · intro j hj v hv hp i hij hidx
      exact (hCleared i v).mpr (h.past j hj v hv hp i hij hidx)
    · rintro v hv j (hlt | ⟨_, hsaw⟩)
      · apply h.seen v hv j
        rcases Nat.lt_succ_iff_lt_or_eq.mp hlt with hlt | rfl
        · exact .inl hlt
        · exact .inr ⟨rfl, by rw [hcomplete]; trivial⟩
      · exact absurd (Finset.mem_range.mpr hv) hsaw
    · exact h.buffer
  · constructor
    · have hlength := hc.length
      rw [hcomplete] at hlength
      exact hlength
    · exact hc.content
    · intro left got hr
      cases hr

end

end Slots
end FwdState
end TorchComms.AllToAllvDedup
