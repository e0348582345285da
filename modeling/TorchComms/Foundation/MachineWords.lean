import Mathlib.Algebra.Order.Ring.Nat
import Mathlib.Data.List.Nodup
import Mathlib.Data.Nat.ModEq

/-! # Conversions of machine words

`size_t` values are naturals below `2 ^ 64`, `int` values are integers.
-/
namespace TorchComms.Foundation

variable {a b x : ℕ}

/-- An `int` as a `size_t`. -/
def toSize (x : ℤ) : ℕ := (x % 2 ^ 64).toNat

/-- A `size_t` converted to `int`. -/
def toInt (x : ℕ) : ℤ := (x : ℤ).bmod (2 ^ 32)

def subSize (a b : ℕ) : ℕ := (a + 2 ^ 64 - b) % 2 ^ 64

theorem toSize_of_nonneg {y : ℤ} (hnonneg : 0 ≤ y) (hlt : y < 2 ^ 64) : toSize y = y.toNat := by
  unfold toSize
  rw [Int.emod_eq_of_lt hnonneg hlt]

@[simp] theorem toSize_natCast (hlt : x < 2 ^ 64) : toSize x = x := by
  rw [toSize_of_nonneg (Int.natCast_nonneg x) (by omega), Int.toNat_natCast]

theorem toInt_of_lt (hlt : x < 2 ^ 31) : toInt x = x := by
  unfold toInt
  apply Int.bmod_eq_of_le_mul_two
  · omega
  · omega

theorem subSize_of_le (hle : b ≤ a) (hlt : a < 2 ^ 64) : subSize a b = a - b := by
  unfold subSize
  rw [Nat.sub_add_comm hle, Nat.add_mod_right, Nat.mod_eq_of_lt (by omega)]

end TorchComms.Foundation

/-! ## Loops whose counter is a machine word

`for (i = start; i < limit; i += stride)` with `i` modulo `M`. The loop does what it does over the
naturals as long as no counter wraps, and a counter that wraps may come back into the range.
-/
namespace TorchComms.Foundation

variable {M limit stride start k : ℕ}

/-- The counter after some turns, if there are so many. -/
def counter (M stride start k : ℕ) : ℕ := (start + k * stride) % M

/-- The loop makes the turn of number `k`. -/
def Executes (M limit stride start k : ℕ) : Prop := ∀ j ≤ k, counter M stride start j < limit

def Ends (M limit stride start : ℕ) : Prop := ∃ k, limit ≤ counter M stride start k

theorem counter_of_lt (h : start + k * stride < M) : counter M stride start k = start + k * stride :=
  Nat.mod_eq_of_lt h

theorem counter_mod : counter M (stride % M) (start % M) k = counter M stride start k := by
  rw [counter, counter, Nat.add_mod, Nat.mod_mod, Nat.mul_mod, Nat.mod_mod, ← Nat.mul_mod,
    ← Nat.add_mod]

theorem counter_start_mod : counter M stride (start % M) k = counter M stride start k :=
  Nat.mod_add_mod _ _ _

theorem executes_mod :
    Executes M limit (stride % M) (start % M) k ↔ Executes M limit stride start k := by
  simp only [Executes, counter_mod]

theorem Executes.mono {j : ℕ} (h : Executes M limit stride start k) (hj : j ≤ k) :
    Executes M limit stride start j := fun i hi => h i (hi.trans hj)

theorem executes_of_lt (hM : limit ≤ M) (h : start + k * stride < limit) :
    Executes M limit stride start k := by
  intro j hj
  have hle : j * stride ≤ k * stride := Nat.mul_le_mul_right _ hj
  rw [counter_of_lt (by omega)]
  omega

theorem exists_first (hstart : start < limit + stride) (h : limit ≤ start + k * stride) :
    ∃ j ≤ k, limit ≤ start + j * stride ∧ start + j * stride < limit + stride := by
  induction k with
  | zero => exact ⟨0, le_refl _, h, by omega⟩
  | succ k ih =>
    by_cases hk : limit ≤ start + k * stride
    · obtain ⟨j, hj, hlimit⟩ := ih hk
      exact ⟨j, by omega, hlimit⟩
    · refine ⟨k + 1, le_refl _, h, ?_⟩
      rw [Nat.add_mul, Nat.one_mul]
      omega

theorem executes_iff (hM : limit + stride ≤ M) (hstart : start < limit + stride) :
    Executes M limit stride start k ↔ start + k * stride < limit := by
  constructor
  · intro hex
    by_contra hge
    obtain ⟨j, hj, hlimit, hlt⟩ := exists_first hstart (Nat.le_of_not_lt hge)
    have hcount := hex j hj
    rw [counter_of_lt (by omega)] at hcount
    omega
  · exact executes_of_lt (by omega)

/-- The same when each turn leads to a value that is still a word. -/
theorem executes_iff_of_next (hM : limit ≤ M) (hstart : start < M)
    (hnext : ∀ k, start + k * stride < limit → start + (k + 1) * stride < M) :
    Executes M limit stride start k ↔ start + k * stride < limit := by
  constructor
  · induction k with
    | zero =>
      intro hex
      have hcount := hex 0 (le_refl _)
      rwa [counter_of_lt (by omega)] at hcount
    | succ k ih =>
      intro hex
      have hlt := hnext k (ih (hex.mono (Nat.le_succ k)))
      have hcount := hex (k + 1) (le_refl _)
      rwa [counter_of_lt hlt] at hcount
  · exact executes_of_lt hM

theorem ends_of_next (hstride : 0 < stride) (hM : limit ≤ M) (hstart : start < M)
    (hnext : ∀ k, start + k * stride < limit → start + (k + 1) * stride < M) :
    Ends M limit stride start := by
  by_contra hno
  have hex : Executes M limit stride start limit := by
    intro j _
    by_contra hge
    exact hno ⟨j, Nat.le_of_not_lt hge⟩
  have hlt := (executes_iff_of_next hM hstart hnext).mp hex
  have hle : limit * 1 ≤ limit * stride := Nat.mul_le_mul_left _ hstride
  omega

theorem ends_of_le (hstride : 0 < stride) (hM : limit + stride ≤ M)
    (hstart : start < limit + stride) : Ends M limit stride start := by
  by_contra hno
  have hex : Executes M limit stride start limit := by
    intro j _
    by_contra hge
    exact hno ⟨j, Nat.le_of_not_lt hge⟩
  have hlt := (executes_iff hM hstart).mp hex
  have hle : limit * 1 ≤ limit * stride := Nat.mul_le_mul_left _ hstride
  omega

theorem executes_wrapped (hpos : 0 < limit) (hM : limit ≤ M) (hk : start + k * stride = M)
    (hlast : M < limit + stride) : Executes M limit stride start k := by
  intro j hj
  rcases Nat.lt_or_eq_of_le hj with hlt | rfl
  · have hle : (j + 1) * stride ≤ k * stride := Nat.mul_le_mul_right _ hlt
    rw [Nat.add_mul, Nat.one_mul] at hle
    rw [counter_of_lt (by omega)]
    omega
  · rw [counter, hk, Nat.mod_self]
    exact hpos

theorem not_ends (hpos : 0 < M) (h : M ≤ limit) : ¬ Ends M limit stride start := by
  rintro ⟨k, hk⟩
  have := Nat.mod_lt (start + k * stride) hpos
  rw [counter] at hk
  omega

theorem not_ends_of_stride (hstart : start % M < limit) : ¬ Ends M limit 0 start := by
  rintro ⟨k, hk⟩
  rw [counter, Nat.mul_zero, Nat.add_zero] at hk
  omega

end TorchComms.Foundation

/-! ## Loops with a stride

The values that a counter takes from a start up to a limit. Workers that start at different residues
of one stride share the range out.
-/
namespace TorchComms.Foundation

/-- `for (i = start; i < limit; i += stride)` -/
def strideLoop (limit stride start : ℕ) : List ℕ :=
  if 0 < stride ∧ start < limit then start :: strideLoop limit stride (start + stride) else []
termination_by limit - start

variable {limit stride start x : ℕ}

theorem mem_strideLoop (hstride : 0 < stride) :
    x ∈ strideLoop limit stride start ↔ start ≤ x ∧ x < limit ∧ x % stride = start % stride := by
  fun_induction strideLoop limit stride start with
  | case1 start h ih =>
    rw [List.mem_cons, ih, Nat.add_mod_right]
    constructor
    · rintro (rfl | ⟨hle, hlt, hmod⟩)
      · exact ⟨le_refl _, h.2, rfl⟩
      · exact ⟨by omega, hlt, hmod⟩
    · rintro ⟨hle, hlt, hmod⟩
      by_cases hnear : x < start + stride
      · -- less than one stride away there is only the start
        left
        have hdvd : stride ∣ x - start := (Nat.modEq_iff_dvd' hle).1 hmod.symm
        have hzero : x - start = 0 := Nat.eq_zero_of_dvd_of_lt hdvd (by omega)
        omega
      · exact .inr ⟨by omega, hlt, hmod⟩
  | case2 start h =>
    simp only [List.not_mem_nil, false_iff]
    rintro ⟨hle, hlt, -⟩
    omega

theorem nodup_strideLoop : (strideLoop limit stride start).Nodup := by
  fun_induction strideLoop limit stride start with
  | case1 start h ih =>
    rw [List.nodup_cons, mem_strideLoop h.1]
    exact ⟨by omega, ih⟩
  | case2 => exact List.nodup_nil

end TorchComms.Foundation
