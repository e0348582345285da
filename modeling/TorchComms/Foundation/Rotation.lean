import Mathlib.Algebra.BigOperators.Group.Finset.Basic

/-! # Positions on a ring

`back n r d` is the position `d` places before `r` on a ring of `n`. Going back all distances below
`n` meets every position once.
-/
namespace TorchComms.Foundation

def back (n r d : ℕ) : ℕ := (r + n - d) % n

variable {n r d e : ℕ}

section

variable (hr : r < n)
include hr

theorem back_lt : back n r d < n := Nat.mod_lt _ (by omega)

theorem back_eq (hd : d ≤ n) : back n r d = if d ≤ r then r - d else r + n - d := by
  unfold back
  split
  · rw [show r + n - d = r - d + n by omega, Nat.add_mod_right, Nat.mod_eq_of_lt (by omega)]
  · rw [Nat.mod_eq_of_lt (by omega)]

@[simp] theorem back_zero : back n r 0 = r := by
  rw [back_eq hr (Nat.zero_le n), if_pos (Nat.zero_le r), Nat.sub_zero]

theorem back_back (h : d + e ≤ n) : back n (back n r d) e = back n r (d + e) := by
  rw [back_eq (back_lt hr) (by omega), back_eq hr (by omega), back_eq hr h]
  split <;> split <;> split <;> omega

theorem back_ne (hpos : 0 < d) (hd : d < n) : back n r d ≠ r := by
  rw [back_eq hr (by omega)]
  split <;> omega

theorem back_next (hd : d + 1 ≤ n) : back n ((r + 1) % n) (d + 1) = back n r d := by
  rcases Nat.lt_or_ge (r + 1) n with hlt | hge
  · rw [Nat.mod_eq_of_lt hlt, back_eq hlt hd, back_eq hr (by omega)]
    split <;> split <;> omega
  · rw [show r + 1 = n by omega, Nat.mod_self, back_eq (by omega) hd, back_eq hr (by omega)]
    split <;> split <;> omega

theorem next_back : (back n r 1 + 1) % n = r := by
  rw [back_eq hr (by omega)]
  split
  · rw [Nat.sub_add_cancel (by omega), Nat.mod_eq_of_lt hr]
  · rw [show r + n - 1 + 1 = n by omega, Nat.mod_self]
    omega

theorem back_involutive (hd : d < n) : back n r (back n r d) = d := by
  rw [back_eq hr (back_lt hr).le, back_eq hr hd.le]
  split <;> split <;> omega

end

theorem sum_back {α : Type*} [AddCommMonoid α] (f : ℕ → α) (hr : r < n) :
    ∑ d ∈ Finset.range n, f (back n r d) = ∑ q ∈ Finset.range n, f q := by
  apply Finset.sum_nbij' (back n r) (back n r)
  · exact fun d _ => Finset.mem_range.mpr (back_lt hr)
  · exact fun d _ => Finset.mem_range.mpr (back_lt hr)
  · exact fun d hd => back_involutive hr (Finset.mem_range.mp hd)
  · exact fun d hd => back_involutive hr (Finset.mem_range.mp hd)
  · exact fun _ _ => rfl

end TorchComms.Foundation

/-! ## The cyclic order of a list

`next` and `prev` lead from each element of a list to its neighbours, with the ends joined. They are
inverse to each other, and going on from any element meets all of them.
-/
namespace TorchComms.Foundation

variable {α : Type*}

/-- The neighbours of the elements, by their places in the list. -/
structure Follows (ring : List α) (prev next : α → α) : Prop where
  next_get : ∀ p x, ring[p]? = some x → ring[(p + 1) % ring.length]? = some (next x)
  prev_get : ∀ p x, ring[p]? = some x → ring[back ring.length p 1]? = some (prev x)

namespace Follows

variable {ring : List α} {prev next : α → α} {x y : α} {p k : ℕ}

theorem lt_of_get (hx : ring[p]? = some x) : p < ring.length :=
  (List.getElem?_eq_some_iff.mp hx).1

section

variable (h : Follows ring prev next)
include h

theorem congr {prev' next' : α → α}
    (hprev : ∀ x ∈ ring, prev' x = prev x) (hnext : ∀ x ∈ ring, next' x = next x) :
    Follows ring prev' next' := by
  constructor
  · intro p x hx
    rw [hnext x (List.mem_of_getElem? hx)]
    exact h.next_get p x hx
  · intro p x hx
    rw [hprev x (List.mem_of_getElem? hx)]
    exact h.prev_get p x hx

theorem next_mem (hx : x ∈ ring) : next x ∈ ring := by
  rcases List.getElem?_of_mem hx with ⟨p, hp⟩
  exact List.mem_of_getElem? (h.next_get p x hp)

theorem prev_next (hx : x ∈ ring) : prev (next x) = x := by
  rcases List.getElem?_of_mem hx with ⟨p, hp⟩
  have hlt := lt_of_get hp
  have hback := h.prev_get _ _ (h.next_get p x hp)
  rw [back_next hlt (d := 0) (by omega), back_zero hlt, hp] at hback
  exact (Option.some.inj hback).symm

theorem next_prev (hx : x ∈ ring) : next (prev x) = x := by
  rcases List.getElem?_of_mem hx with ⟨p, hp⟩
  have hon := h.next_get _ _ (h.prev_get p x hp)
  rw [next_back (lt_of_get hp), hp] at hon
  exact (Option.some.inj hon).symm

theorem iterate_get (hx : ring[p]? = some x) (k : ℕ) :
    ring[(p + k) % ring.length]? = some (next^[k] x) := by
  induction k with
  | zero => rw [Nat.add_zero, Nat.mod_eq_of_lt (lt_of_get hx), hx]; rfl
  | succ k ih =>
    have hon := h.next_get _ _ ih
    rw [Nat.mod_add_mod] at hon
    rw [Function.iterate_succ_apply']
    exact hon

theorem exists_iterate (hx : x ∈ ring) (hy : y ∈ ring) : ∃ k, next^[k] x = y := by
  rcases List.getElem?_of_mem hx with ⟨p, hp⟩
  rcases List.getElem?_of_mem hy with ⟨q, hq⟩
  have hplt := lt_of_get hp
  have hqlt := lt_of_get hq
  refine ⟨q + ring.length - p, ?_⟩
  have hget := h.iterate_get hp (q + ring.length - p)
  rw [show p + (q + ring.length - p) = q + ring.length by omega, Nat.add_mod_right,
    Nat.mod_eq_of_lt hqlt, hq] at hget
  exact (Option.some.inj hget).symm

end

end Follows

end TorchComms.Foundation
