import Mathlib.Combinatorics.Pigeonhole
import Mathlib.Data.Nat.Bitwise

/-! # Slots of a ring

A step uses the slot of its number, masked by one less than the size of the ring. Where the size is a
power of two, steps share a slot when they are whole rounds apart.
-/
namespace TorchComms.Foundation

variable {size i j : ℕ}

theorem slot_eq_mod (hsize : ∃ k, size = 2 ^ k) (i : ℕ) : i &&& (size - 1) = i % size := by
  obtain ⟨k, rfl⟩ := hsize
  exact Nat.and_two_pow_sub_one_eq_mod i k

theorem slot_lt (hpos : 0 < size) (i : ℕ) : i &&& (size - 1) < size :=
  Nat.and_le_right.trans_lt (Nat.pred_lt hpos.ne')

/-- The step one round before an other uses its slot, and no step of the slot lies between them. -/
theorem round_of_slot_eq (hsize : ∃ k, size = 2 ^ k) (hij : i < j)
    (hslot : i &&& (size - 1) = j &&& (size - 1)) :
    size ≤ j ∧ i ≤ j - size ∧ (j - size) &&& (size - 1) = j &&& (size - 1) := by
  rw [slot_eq_mod hsize, slot_eq_mod hsize] at hslot
  have hdvd : size ∣ j - i := (Nat.modEq_iff_dvd' hij.le).mp hslot
  have hle : size ≤ j - i := Nat.le_of_dvd (by omega) hdvd
  refine ⟨by omega, by omega, ?_⟩
  rw [slot_eq_mod hsize, slot_eq_mod hsize, ← Nat.mod_eq_sub_mod (by omega)]

theorem exists_unused_slot (hpos : 0 < size) (hsize : ¬ ∃ k, size = 2 ^ k) :
    ∃ slot < size, ∀ i, i &&& (size - 1) ≠ slot := by
  -- a bit below the top that the mask leaves out
  have hbit : ∃ t, 2 ^ t < size ∧ (size - 1).testBit t = false := by
    by_contra hall
    have hfull : ∀ t, 2 ^ t < size → (size - 1).testBit t = true := by
      intro t ht
      by_contra hfalse
      exact hall ⟨t, ht, Bool.eq_false_of_not_eq_true hfalse⟩
    have hex : ∃ k, size ≤ 2 ^ k := ⟨size, Nat.lt_two_pow_self.le⟩
    apply hsize
    refine ⟨Nat.find hex, ?_⟩
    have hle := Nat.find_spec hex
    have hmask : size - 1 = 2 ^ Nat.find hex - 1 := by
      apply Nat.eq_of_testBit_eq
      intro t
      rw [Nat.testBit_two_pow_sub_one]
      by_cases ht : t < Nat.find hex
      · rw [decide_eq_true ht]
        exact hfull t (Nat.lt_of_not_le (Nat.find_min hex ht))
      · rw [decide_eq_false ht]
        apply Nat.testBit_lt_two_pow
        have hmono := Nat.pow_le_pow_right Nat.two_pos (Nat.le_of_not_lt ht)
        omega
    have htwo : 0 < 2 ^ Nat.find hex := Nat.two_pow_pos _
    omega
  rcases hbit with ⟨t, ht, hfalse⟩
  refine ⟨2 ^ t, ht, fun i hi => ?_⟩
  have hand := congrArg (fun n => Nat.testBit n t) hi
  simp [hfalse] at hand

theorem slot_ne (hsize : ∃ k, size = 2 ^ k) (hij : i < j) (hlt : j - i < size) :
    i &&& (size - 1) ≠ j &&& (size - 1) := by
  intro hslot
  have hround := round_of_slot_eq hsize hij hslot
  omega

theorem exists_shared_slot (hpos : 0 < size) (hsize : ¬ ∃ k, size = 2 ^ k) :
    ∃ i j, i < j ∧ j < size ∧ i &&& (size - 1) = j &&& (size - 1) := by
  rcases exists_unused_slot hpos hsize with ⟨slot, hslot, hunused⟩
  have hcard : ((Finset.range size).erase slot).card < (Finset.range size).card :=
    Finset.card_erase_lt_of_mem (Finset.mem_range.mpr hslot)
  have hmaps : ∀ i ∈ Finset.range size, i &&& (size - 1) ∈ (Finset.range size).erase slot :=
    fun i _ => Finset.mem_erase.mpr ⟨hunused i, Finset.mem_range.mpr (slot_lt hpos i)⟩
  rcases Finset.exists_ne_map_eq_of_card_lt_of_maps_to hcard hmaps with ⟨i, hi, j, hj, hne, heq⟩
  rw [Finset.mem_range] at hi hj
  rcases Nat.lt_or_gt_of_ne hne with hlt | hgt
  · exact ⟨i, j, hlt, hj, heq⟩
  · exact ⟨j, i, hgt, hi, heq.symm⟩

end TorchComms.Foundation
