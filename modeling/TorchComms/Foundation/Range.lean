import Mathlib.Data.List.Pairwise
import Mathlib.Tactic.Ring

/-! # Byte ranges and carving blocks from the front of a free range

Two ranges are apart when they share no byte, so an empty range is apart from every
range. A block carved from the front of a free range is covered by it and apart from
what remains.
-/
namespace TorchComms.Foundation

structure Range where
  base : ℕ
  size : ℕ
deriving DecidableEq, Repr

namespace Range

def stop (r : Range) : ℕ := r.base + r.size

/-- `r` contains every byte of `s`, and the address of `s` when `s` is empty. -/
def Covers (r s : Range) : Prop := r.base ≤ s.base ∧ s.stop ≤ r.stop

/-- No byte is in both ranges. -/
def Apart (r s : Range) : Prop :=
  r.size = 0 ∨ s.size = 0 ∨ r.stop ≤ s.base ∨ s.stop ≤ r.base

instance (r s : Range) : Decidable (Covers r s) := inferInstanceAs (Decidable (_ ∧ _))
instance (r s : Range) : Decidable (Apart r s) := inferInstanceAs (Decidable (_ ∨ _))

/-- The first `n` bytes. -/
def front (r : Range) (n : ℕ) : Range := ⟨r.base, n⟩

/-- All but the first `n` bytes. -/
def rest (r : Range) (n : ℕ) : Range := ⟨r.base + n, r.size - n⟩

theorem Apart.symm {r s : Range} (h : r.Apart s) : s.Apart r := by
  unfold Apart at *
  omega

theorem apart_of_empty {r s : Range} (h : s.size = 0) : r.Apart s := .inr (.inl h)

theorem Covers.refl (r : Range) : r.Covers r := ⟨le_rfl, le_rfl⟩

theorem Covers.trans {r s t : Range} (hrs : r.Covers s) (hst : s.Covers t) : r.Covers t :=
  ⟨hrs.1.trans hst.1, hst.2.trans hrs.2⟩

theorem Apart.of_covers {r s t : Range} (h : r.Apart t) (hc : r.Covers s) : s.Apart t := by
  unfold Apart Covers stop at *
  omega

variable {r : Range} {n m : ℕ}

theorem covers_front (hm : m ≤ n) (hn : n ≤ r.size) : r.Covers (r.front m) := by
  unfold Covers front stop
  simp only
  omega

theorem covers_rest {n : ℕ} (hn : n ≤ r.size) : r.Covers (r.rest n) := by
  unfold Covers rest stop
  simp only
  omega

theorem front_apart_rest (hm : m ≤ n) : (r.front m).Apart (r.rest n) := by
  unfold Apart front rest stop
  simp only
  omega

theorem stop_rest {n : ℕ} (hn : n ≤ r.size) : (r.rest n).stop = r.stop := by
  unfold stop rest
  simp only
  omega

theorem pairwise_apart_concat {rs : List Range} (hrs : rs.Pairwise Apart)
    (hr : ∀ s ∈ rs, s.Apart r) : (rs ++ [r]).Pairwise Apart := by
  rw [List.pairwise_append]
  refine ⟨hrs, List.pairwise_singleton _ _, fun s hs t ht => ?_⟩
  rw [List.mem_singleton.mp ht]
  exact hr s hs

/-! ## Range checks in machine arithmetic

A check that computes the end of a range as a machine word lets a range pass whose end wraps to a
small value.
-/

/-- Every byte of the range lies below `size`. -/
def Below (r : Range) (size : ℕ) : Prop := ∀ b, r.base ≤ b → b < r.stop → b < size

theorem below_iff {size : ℕ} : r.Below size ↔ r.size = 0 ∨ r.stop ≤ size := by
  unfold Below stop
  constructor
  · intro h
    by_cases hempty : r.size = 0
    · exact .inl hempty
    · have hlast := h (r.base + r.size - 1) (by omega) (by omega)
      exact .inr (by omega)
  · rintro (hempty | hstop) b hbase hlt
    · omega
    · omega

/-- A range with a byte ends up below the limit of the check only if its end does not wrap, and
when it wraps the check has to refuse it. -/
theorem checked_iff {M size : ℕ} (hM : size < M) :
    (r.stop % M ≤ size → r.Below size) ↔ r.size = 0 ∨ r.stop < M ∨ size < r.stop % M := by
  rw [below_iff]
  constructor
  · intro h
    by_cases hpass : r.stop % M ≤ size
    · rcases h hpass with hempty | hstop
      · exact .inl hempty
      · exact .inr (.inl (by omega))
    · exact .inr (.inr (by omega))
  · rintro (hempty | hlt | hrefused) hpass
    · exact .inl hempty
    · rw [Nat.mod_eq_of_lt hlt] at hpass
      exact .inr hpass
    · omega

/-- Elements one after another, at addresses that may wrap: they lie in a buffer that ends before
the address space as their bytes do. -/
theorem elements_iff {M base size off e n : ℕ} (hoff : off < M) (hbase : base + size < M)
    (hempty : e = 0 → off = 0) :
    (∀ i < n, base ≤ (base + off + i * e) % M ∧ (base + off + i * e) % M + e ≤ base + size) ↔
      Below ⟨off, n * e⟩ size := by
  rw [below_iff]
  constructor
  · intro h
    by_contra hno
    rw [not_or, stop, Nat.not_le] at hno
    rcases hno with ⟨hsize, hstop⟩
    have he : 0 < e := Nat.pos_of_ne_zero fun h => hsize (by rw [h, Nat.mul_zero])
    -- the element of the first byte past the limit
    have hbyte : max off size - off < n * e := by
      simp only at hsize hstop
      omega
    have hi : (max off size - off) / e < n := Nat.div_lt_of_lt_mul (Nat.mul_comm n e ▸ hbyte)
    have hle := Nat.div_mul_le_self (max off size - off) e
    have hlt := Nat.lt_div_mul_add (a := max off size - off) he
    have hin := h _ hi
    generalize (max off size - off) / e * e = x at hle hlt hin
    by_cases hwrap : base + off + x < M
    · rw [Nat.mod_eq_of_lt hwrap] at hin
      omega
    · rw [Nat.mod_eq_sub_mod (by omega), Nat.mod_eq_of_lt (by omega)] at hin
      omega
  · rintro hsize i hi
    have hmul : (i + 1) * e ≤ n * e := Nat.mul_le_mul_right e hi
    rw [Nat.add_mul, Nat.one_mul] at hmul
    rcases hsize with hzero | hstop
    · have he : e = 0 := by
        simp only at hzero
        omega
      rw [hempty he, he, Nat.mul_zero, Nat.add_zero, Nat.add_zero, Nat.mod_eq_of_lt (by omega)]
      omega
    · rw [stop] at hstop
      simp only at hstop
      rw [Nat.mod_eq_of_lt (by omega)]
      omega

end Range
end TorchComms.Foundation
