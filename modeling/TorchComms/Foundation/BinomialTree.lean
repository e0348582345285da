import Mathlib.Data.Nat.Log
import Mathlib.Tactic.Ring

/-! # The binomial tree on the natural numbers

The parent of a number is what remains when its highest bit is cleared, so that the children of a
number are reached by setting a bit above all of its bits. The tree on the numbers below `n` is
carried over to `n` places in a circle, counted from any of them.
-/
namespace TorchComms.Foundation.BinomialTree

variable {d k n r root o : ℕ}

/-- The highest bit of a number. -/
def top (d : ℕ) : ℕ := if d = 0 then 0 else 2 ^ d.log2

def parent (d : ℕ) : ℕ := d - top d

/-- The distance from a number to its first child. It doubles from one child to the next. -/
def first (d : ℕ) : ℕ := if d = 0 then 1 else 2 * top d

theorem top_pos (h : d ≠ 0) : 0 < top d := by
  rw [top, if_neg h]
  exact Nat.two_pow_pos _

theorem top_le (d : ℕ) : top d ≤ d := by
  unfold top
  split
  · omega
  · exact Nat.log2_self_le ‹_›

theorem lt_two_mul_top (h : d ≠ 0) : d < 2 * top d := by
  have hlt : d < 2 ^ (d.log2 + 1) := Nat.lt_log2_self
  rw [top, if_neg h]
  rw [pow_succ] at hlt
  omega

theorem parent_lt (h : d ≠ 0) : parent d < d := by
  have := top_pos h
  unfold parent
  omega

theorem first_pos (d : ℕ) : 0 < first d := by
  unfold first
  split
  · exact Nat.one_pos
  · have := top_pos ‹_›
    omega

theorem exists_first (d i : ℕ) : ∃ j, first d * 2 ^ i = 2 ^ j ∧ d < 2 ^ j := by
  unfold first
  split
  · use i
    constructor
    · rw [one_mul]
    · have := Nat.two_pow_pos i
      omega
  · rename_i h
    use d.log2 + 1 + i
    constructor
    · rw [top, if_neg h]
      ring
    · have hlt : d < 2 ^ (d.log2 + 1) := Nat.lt_log2_self
      apply hlt.trans_le
      exact Nat.pow_le_pow_right (by omega) (by omega)

theorem parent_add_two_pow {j : ℕ} (h : d < 2 ^ j) : parent (d + 2 ^ j) = d := by
  have hne : d + 2 ^ j ≠ 0 := by
    have := Nat.two_pow_pos j
    omega
  have hlog : (d + 2 ^ j).log2 = j := by
    rw [Nat.log2_eq_iff hne, pow_succ]
    omega
  rw [parent, top, if_neg hne, hlog]
  omega

/-- The numbers reached from `d` by a child's distance are those whose parent is `d`. -/
theorem exists_child_iff : (∃ i, k = d + first d * 2 ^ i) ↔ k ≠ 0 ∧ parent k = d := by
  constructor
  · rintro ⟨i, rfl⟩
    obtain ⟨j, hj, hlt⟩ := exists_first d i
    rw [hj]
    constructor
    · have := Nat.two_pow_pos j
      omega
    · exact parent_add_two_pow hlt
  · rintro ⟨hk, rfl⟩
    have hlt := lt_two_mul_top hk
    have hle := top_le k
    by_cases hp : parent k = 0
    · use k.log2
      rw [hp, first, if_pos rfl, one_mul, zero_add]
      unfold parent at hp
      rw [top, if_neg hk] at hle hp
      omega
    · have htop : top (parent k) < top k := by
        have := top_le (parent k)
        unfold parent at this ⊢
        omega
      have hlog : (parent k).log2 < k.log2 := by
        rw [top, top, if_neg hp, if_neg hk] at htop
        exact (Nat.pow_lt_pow_iff_right (by omega)).mp htop
      use k.log2 - (parent k).log2 - 1
      have hpow : first (parent k) * 2 ^ (k.log2 - (parent k).log2 - 1) = top k := by
        rw [first, if_neg hp, top, if_neg hp, top, if_neg hk, ← pow_succ', ← pow_add]
        congr 1
        omega
      rw [hpow]
      unfold parent
      omega

/-! ### Around a circle -/

/-- How far round the circle a place is from the root. -/
def dist (n root r : ℕ) : ℕ := (r + n - root) % n

theorem mod_cases (h : d < 2 * n) : d < n ∧ d % n = d ∨ n ≤ d ∧ d % n = d - n := by
  rcases Nat.lt_or_ge d n with hlt | hge
  · exact .inl ⟨hlt, Nat.mod_eq_of_lt hlt⟩
  · right
    refine ⟨hge, ?_⟩
    rw [Nat.mod_eq_sub_mod hge]
    exact Nat.mod_eq_of_lt (by omega)

theorem dist_lt (hr : r < n) : dist n root r < n := Nat.mod_lt _ (by omega)

section Circle

variable (hroot : root < n) (hr : r < n)
include hroot hr

theorem dist_eq : dist n root r = if root ≤ r then r - root else r + n - root := by
  unfold dist
  have hlt : r + n - root < 2 * n := by omega
  rcases mod_cases hlt with ⟨h, heq⟩ | ⟨h, heq⟩
  · rw [heq, if_neg (by omega)]
  · rw [heq, if_pos (by omega)]
    omega

theorem dist_eq_zero : dist n root r = 0 ↔ r = root := by
  rw [dist_eq hroot hr]
  split <;> omega

theorem dist_add (ho : dist n root r + o < n) :
    (r + o) % n < n ∧ dist n root ((r + o) % n) = dist n root r + o := by
  have hlt : (r + o) % n < n := Nat.mod_lt _ (by omega)
  refine ⟨hlt, ?_⟩
  rw [dist_eq hroot hlt]
  rw [dist_eq hroot hr] at ho ⊢
  have ho' : o < n := by omega
  rcases mod_cases (n := n) (d := r + o) (by omega) with ⟨h, heq⟩ | ⟨h, heq⟩ <;>
    rw [heq] <;> split at ho <;> split <;> omega

theorem dist_sub (ho : o ≤ dist n root r) :
    (r + n - o) % n < n ∧ dist n root ((r + n - o) % n) = dist n root r - o := by
  have hlt : (r + n - o) % n < n := Nat.mod_lt _ (by omega)
  refine ⟨hlt, ?_⟩
  have hd : dist n root r < n := dist_lt hr
  rw [dist_eq hroot hlt]
  rw [dist_eq hroot hr] at ho hd ⊢
  rcases mod_cases (n := n) (d := r + n - o) (by omega) with ⟨h, heq⟩ | ⟨h, heq⟩ <;>
    rw [heq] <;> split at ho <;> split <;> omega

theorem dist_injective {r' : ℕ} (hr' : r' < n) (h : dist n root r = dist n root r') : r = r' := by
  rw [dist_eq hroot hr, dist_eq hroot hr'] at h
  split at h <;> split at h <;> omega

end Circle

/-- The parent of a place: one step towards the root over the highest bit of its distance. -/
def parentOf (n root r : ℕ) : ℕ := (r + n - top (dist n root r)) % n

section

variable (hroot : root < n) (hr : r < n)
include hroot hr

theorem dist_parentOf :
    parentOf n root r < n ∧ dist n root (parentOf n root r) = parent (dist n root r) :=
  dist_sub hroot hr (top_le _)

/-- A place is reached from another by a child's distance if and only if that one is its parent. -/
theorem child_iff_parentOf (hk : k < n) :
    (∃ i, dist n root r + first (dist n root r) * 2 ^ i < n ∧
      k = (r + first (dist n root r) * 2 ^ i) % n) ↔ k ≠ root ∧ parentOf n root k = r := by
  obtain ⟨hparent, hdist⟩ := dist_parentOf hroot hk
  constructor
  · rintro ⟨i, hi, rfl⟩
    obtain ⟨_, hd⟩ := dist_add hroot hr hi
    have hchild := (exists_child_iff (d := dist n root r)).mp ⟨i, hd⟩
    constructor
    · intro h
      exact hchild.1 ((dist_eq_zero hroot hk).mpr h)
    · apply dist_injective hroot hparent hr
      rw [hdist, hchild.2]
  · rintro ⟨hne, rfl⟩
    have hpos : dist n root k ≠ 0 := fun h => hne ((dist_eq_zero hroot hk).mp h)
    obtain ⟨i, hi⟩ := exists_child_iff.mpr ⟨hpos, hdist.symm⟩
    have hlt : dist n root k < n := dist_lt hk
    use i
    rw [← hi]
    refine ⟨hlt, ?_⟩
    obtain ⟨hmod, hd⟩ := dist_add hroot hparent (hi ▸ hlt)
    apply dist_injective hroot hk hmod
    rw [hd]
    exact hi

theorem reaches_root :
    Relation.ReflTransGen (fun a b => a < n ∧ a ≠ root ∧ b = parentOf n root a) r root := by
  induction hd : dist n root r using Nat.strong_induction_on generalizing r with
  | _ d ih =>
    by_cases hr0 : r = root
    · rw [hr0]
    · obtain ⟨hparent, hdist⟩ := dist_parentOf hroot hr
      have hne : dist n root r ≠ 0 := fun h => hr0 ((dist_eq_zero hroot hr).mp h)
      have hlt : dist n root (parentOf n root r) < d := by
        rw [hdist, ← hd]
        exact parent_lt hne
      exact (ih _ hlt hparent rfl).head ⟨hr, hr0, rfl⟩

end

end TorchComms.Foundation.BinomialTree
