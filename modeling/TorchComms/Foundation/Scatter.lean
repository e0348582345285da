import Mathlib.Algebra.Order.Group.Nat
import Mathlib.Data.List.Pairwise

/-! # Stores to a memory, and a layout of keys

Stores that are made in some order leave at a place what all stores to it agree on. Keys that are
laid out one behind another get ranges apart from each other.
-/
namespace TorchComms.Foundation

variable {ι κ β : Type*} [DecidableEq κ]

/-- Make the stores in order. -/
def scatter (target : ι → κ) (value : ι → β) (l : List ι) (m : κ → β) : κ → β :=
  l.foldl (fun m i => Function.update m (target i) (value i)) m

section Scatter

variable {target : ι → κ} {value : ι → β} {l : List ι} {m : κ → β} {k : κ} {v : β}

theorem scatter_of_not_mem (h : ∀ i ∈ l, target i ≠ k) : scatter target value l m k = m k := by
  induction l generalizing m with
  | nil => rfl
  | cons i l ih =>
    rw [scatter, List.foldl_cons]
    have hrest := ih (m := Function.update m (target i) (value i)) fun j hj =>
      h j (List.mem_cons_of_mem _ hj)
    rw [scatter] at hrest
    rw [hrest, Function.update_of_ne (h i List.mem_cons_self).symm]

theorem scatter_of_forall (h : ∀ i ∈ l, target i = k → value i = v)
    (hsome : m k = v ∨ ∃ i ∈ l, target i = k) : scatter target value l m k = v := by
  induction l generalizing m with
  | nil =>
    rcases hsome with hv | ⟨i, hi, _⟩
    · exact hv
    · exact absurd hi List.not_mem_nil
  | cons i l ih =>
    rw [scatter, List.foldl_cons]
    apply ih fun j hj => h j (List.mem_cons_of_mem _ hj)
    by_cases hi : target i = k
    · left
      rw [hi, Function.update_self]
      exact h i List.mem_cons_self hi
    · rw [Function.update_of_ne (Ne.symm hi)]
      rcases hsome with hv | ⟨j, hj, hk⟩
      · exact Or.inl hv
      · rcases List.mem_cons.mp hj with rfl | hj
        · exact absurd hk hi
        · exact Or.inr ⟨j, hj, hk⟩

end Scatter

/-- Lay out the keys of a list: the offset of each, in units, and the sum of the counts. -/
def layOut (unit : ℕ) (count : κ → ℕ) (l : List κ) (s : (κ → ℕ) × ℕ) : (κ → ℕ) × ℕ :=
  l.foldl (fun s k => (Function.update s.1 k (s.2 * unit), s.2 + count k)) s

section LayOut

variable {unit : ℕ} {count : κ → ℕ} {l : List κ} {s : (κ → ℕ) × ℕ} {k : κ}

theorem layOut_cons : layOut unit count (k :: l) s =
    layOut unit count l (Function.update s.1 k (s.2 * unit), s.2 + count k) := rfl

theorem layOut_of_not_mem (h : k ∉ l) : (layOut unit count l s).1 k = s.1 k := by
  induction l generalizing s with
  | nil => rfl
  | cons j l ih =>
    rw [List.mem_cons, not_or] at h
    rw [layOut_cons, ih h.2]
    exact Function.update_of_ne h.1 _ _

theorem layOut_head (h : k ∉ l) : (layOut unit count (k :: l) s).1 k = s.2 * unit := by
  rw [layOut_cons, layOut_of_not_mem h]
  exact Function.update_self _ _ _

theorem le_layOut (unit : ℕ) (count : κ → ℕ) (l : List κ) (s : (κ → ℕ) × ℕ) :
    s.2 ≤ (layOut unit count l s).2 := by
  induction l generalizing s with
  | nil => exact Nat.le_refl _
  | cons j l ih =>
    exact (Nat.le_add_right _ _).trans (ih (Function.update s.1 j (s.2 * unit), s.2 + count j))

/-- Every key lies behind what was there before, and before the end. -/
theorem layOut_mem (unit : ℕ) (count : κ → ℕ) (s : (κ → ℕ) × ℕ) (hl : l.Nodup) (hk : k ∈ l) :
    s.2 * unit ≤ (layOut unit count l s).1 k ∧
      (layOut unit count l s).1 k + count k * unit ≤ (layOut unit count l s).2 * unit := by
  induction l generalizing s with
  | nil => exact absurd hk List.not_mem_nil
  | cons j l ih =>
    rw [List.nodup_cons] at hl
    by_cases hj : k = j
    · subst hj
      rw [layOut_head hl.1, ← Nat.add_mul]
      exact ⟨Nat.le_refl _, Nat.mul_le_mul_right unit
        (le_layOut unit count l (Function.update s.1 k (s.2 * unit), s.2 + count k))⟩
    · rw [layOut_cons]
      rcases ih _ hl.2 ((List.mem_cons.mp hk).resolve_left hj) with ⟨hbefore, hend⟩
      exact ⟨(Nat.mul_le_mul_right unit (Nat.le_add_right _ _)).trans hbefore, hend⟩

theorem layOut_pairwise (hl : l.Nodup) :
    l.Pairwise fun a b => (layOut unit count l s).1 a + count a * unit ≤
      (layOut unit count l s).1 b := by
  induction l generalizing s with
  | nil => exact List.Pairwise.nil
  | cons j l ih =>
    rw [List.nodup_cons] at hl
    refine List.Pairwise.cons ?_ (ih hl.2)
    intro b hb
    rw [layOut_head hl.1, ← Nat.add_mul]
    exact (layOut_mem unit count (Function.update s.1 j (s.2 * unit), s.2 + count j) hl.2 hb).1

/-- Two keys have ranges apart. -/
theorem layOut_apart (unit : ℕ) (count : κ → ℕ) (s : (κ → ℕ) × ℕ) (hl : l.Nodup) {a b : κ} (ha : a ∈ l) (hb : b ∈ l) (hne : a ≠ b) :
    (layOut unit count l s).1 a + count a * unit ≤ (layOut unit count l s).1 b ∨
      (layOut unit count l s).1 b + count b * unit ≤ (layOut unit count l s).1 a := by
  let R := fun a b => (layOut unit count l s).1 a + count a * unit ≤ (layOut unit count l s).1 b ∨
    (layOut unit count l s).1 b + count b * unit ≤ (layOut unit count l s).1 a
  have hsymm : Std.Symm R := ⟨fun _ _ => Or.symm⟩
  have hpairs : l.Pairwise R := (layOut_pairwise hl).imp Or.inl
  exact hpairs.forall ha hb hne

end LayOut
end TorchComms.Foundation
