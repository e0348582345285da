import Mathlib.Data.List.Nodup

/-! # A deque whose elements keep their references

An element is named by its position counted from the first element ever pushed. Pushing at the
back and popping at the front leave the name of every other element alone.
-/
namespace TorchComms.Foundation

structure StableDeque (α : Type*) where
  popped : ℕ := 0
  items : List α := []
deriving DecidableEq

namespace StableDeque

variable {α : Type*} {κ : Type*} {d : StableDeque α} {a b : α} {i : ℕ}

/-- The element a reference names; `none` when it is gone. -/
def get? (d : StableDeque α) (i : ℕ) : Option α :=
  if i < d.popped then none else d.items[i - d.popped]?

def push_back (d : StableDeque α) (a : α) : StableDeque α := { d with items := d.items ++ [a] }

/-- The reference of the last element. -/
def back (d : StableDeque α) : ℕ := d.popped + (d.items.length - 1)

def pop_front (d : StableDeque α) : StableDeque α := ⟨d.popped + 1, d.items.tail⟩

def modify (d : StableDeque α) (i : ℕ) (f : α → α) : StableDeque α :=
  { d with items := d.items.modify (i - d.popped) f }

theorem get?_eq_some : d.get? i = some a ↔ d.popped ≤ i ∧ d.items[i - d.popped]? = some a := by
  simp only [get?]
  by_cases hi : i < d.popped
  · simp [hi, Nat.not_le_of_lt hi]
  · simp [hi, Nat.le_of_not_lt hi]

@[simp] theorem get?_back (d : StableDeque α) (a : α) :
    (d.push_back a).get? (d.push_back a).back = some a := by
  simp [get?, back, push_back]

theorem get?_push_back_cases (h : (d.push_back b).get? i = some a) :
    d.get? i = some a ∨ i = (d.push_back b).back ∧ a = b := by
  rw [get?_eq_some] at h
  simp only [push_back] at h
  rcases Nat.lt_or_ge (i - d.popped) d.items.length with hlt | hge
  · left
    rw [List.getElem?_append_left hlt] at h
    exact get?_eq_some.mpr h
  · right
    rw [List.getElem?_append_right hge] at h
    rcases List.getElem?_eq_some_iff.mp h.2 with ⟨hlt, ha⟩
    simp only [List.length_singleton, Nat.lt_one_iff] at hlt
    refine ⟨?_, ?_⟩
    · simp only [back, push_back, List.length_append, List.length_singleton]
      omega
    · simpa using ha.symm

theorem get?_pop_front (h : d.pop_front.get? i = some a) : d.get? i = some a := by
  rw [get?_eq_some] at h ⊢
  simp only [pop_front, List.getElem?_tail] at h
  refine ⟨Nat.le_of_succ_le h.1, ?_⟩
  rw [← h.2]
  congr 1
  omega

theorem mem_of_get? (h : d.get? i = some a) : a ∈ d.items :=
  List.mem_of_getElem? (get?_eq_some.mp h).2

theorem get?_of_mem (h : a ∈ d.items) : ∃ i, d.get? i = some a := by
  rcases List.mem_iff_getElem?.mp h with ⟨k, hk⟩
  refine ⟨d.popped + k, get?_eq_some.mpr ⟨Nat.le_add_right _ _, ?_⟩⟩
  rw [Nat.add_sub_cancel_left]
  exact hk

variable {key : α → κ}

theorem get?_inj (hnodup : (d.items.map key).Nodup) {j : ℕ}
    (hi : d.get? i = some a) (hj : d.get? j = some b) (hkey : key a = key b) : i = j := by
  rw [get?_eq_some] at hi hj
  rcases List.getElem?_eq_some_iff.mp hi.2 with ⟨hli, _⟩
  have heq : i - d.popped = j - d.popped := by
    apply (List.getElem?_inj (by simpa using hli) hnodup).mp
    simp [hi.2, hj.2, hkey]
  omega

theorem get?_modify (d : StableDeque α) (i j : ℕ) (f : α → α) (hi : d.popped ≤ i) :
    (d.modify i f).get? j = (d.get? j).map fun a => if i = j then f a else a := by
  by_cases hj : d.popped ≤ j
  · have hiff : i - d.popped = j - d.popped ↔ i = j := by omega
    simp only [get?, modify, List.getElem?_modify, Nat.not_lt_of_le hj, if_false, hiff]
    rfl
  · simp [get?, modify, Nat.lt_of_not_le hj]

/-- Changing the element a reference names is changing the elements with its key. -/
theorem modify_items [DecidableEq κ] (hnodup : (d.items.map key).Nodup)
    (h : d.get? i = some a) (f : α → α) :
    (d.modify i f).items = d.items.map fun b => if key b = key a then f b else b := by
  apply List.ext_getElem?
  intro k
  have hpop := (get?_eq_some.mp h).1
  simp only [modify, List.getElem?_modify, List.getElem?_map]
  cases hk : d.items[k]? with
  | none => rfl
  | some b =>
    have hb : d.get? (d.popped + k) = some b := by
      rw [get?_eq_some, Nat.add_sub_cancel_left]
      exact ⟨Nat.le_add_right _ _, hk⟩
    have hiff : i - d.popped = k ↔ key b = key a := by
      constructor
      · intro heq
        have hik : i = d.popped + k := by omega
        rw [hik, hb] at h
        rw [Option.some.inj h]
      · intro hkey
        have hki := get?_inj hnodup hb h hkey
        omega
    simp [hiff]

end StableDeque
end TorchComms.Foundation
