import Mathlib.Algebra.Order.BigOperators.Group.List
import Mathlib.Algebra.Order.Ring.Int

/-! # Sums over a list whose entries change one at a time -/
namespace TorchComms.Foundation

variable {α : Type*} {l : List α} {a : α} {i : ℕ}

theorem sum_map_set (f : α → ℤ) (h : l[i]? = some a) (b : α) :
    ((l.set i b).map f).sum = (l.map f).sum - f a + f b := by
  induction l generalizing i with
  | nil => cases h
  | cons x l ih =>
    cases i with
    | zero =>
      rw [List.getElem?_cons_zero, Option.some.injEq] at h
      subst h
      simp only [List.set_cons_zero, List.map_cons, List.sum_cons]
      omega
    | succ i =>
      rw [List.getElem?_cons_succ] at h
      simp only [List.set_cons_succ, List.map_cons, List.sum_cons, ih h]
      omega

variable {f : α → ℤ}

theorem le_sum_map (hf : ∀ b ∈ l, 0 ≤ f b) (ha : a ∈ l) : f a ≤ (l.map f).sum := by
  apply List.single_le_sum
  · intro x hx
    rcases List.mem_map.mp hx with ⟨b, hb, rfl⟩
    exact hf b hb
  · exact List.mem_map_of_mem ha

theorem sum_map_nonneg (hf : ∀ b ∈ l, 0 ≤ f b) : 0 ≤ (l.map f).sum := by
  apply List.sum_nonneg
  intro x hx
  rcases List.mem_map.mp hx with ⟨b, hb, rfl⟩
  exact hf b hb

theorem mem_of_mem_set {b x : α} (h : x ∈ l.set i b) : x = b ∨ x ∈ l := by
  rcases List.mem_or_eq_of_mem_set h with h | h
  · exact Or.inr h
  · exact Or.inl h

end TorchComms.Foundation
