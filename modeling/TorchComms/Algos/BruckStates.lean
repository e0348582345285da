import TorchComms.Algos.AllGatherBrucksFF
import Mathlib.Data.Nat.ModEq

/-! # What the ranks have at each step

A rank has the blocks at all multiples of twice the step's distance from it. What comes in a step are
the blocks at the odd multiples of the distance that it did not have already.
-/
namespace TorchComms.Algos.AllGatherBrucksFF

variable {p r q i j b : ℕ}

theorem steps_pos : 1 ≤ ceilLog2I p := Nat.le_add_right 1 _

theorem half_lt (hp : 2 ≤ p) : 2 ^ (ceilLog2I p - 1) < p := by
  have hle := Nat.log2_self_le (n := p - 1) (by omega)
  unfold ceilLog2I
  rw [Nat.add_sub_cancel_left]
  omega

theorem le_pow (hp : 2 ≤ p) : p ≤ 2 ^ ceilLog2I p := by
  have hlt := Nat.lt_log2_self (n := p - 1)
  unfold ceilLog2I
  rw [Nat.add_comm]
  omega

/-- The distance of a step. -/
def dist (p step : ℕ) : ℕ := 2 ^ (ceilLog2I p - step - 1)

theorem dist_pos : 0 < dist p i := Nat.two_pow_pos _

theorem dist_lt (hp : 2 ≤ p) : dist p i < p := by
  have hle : dist p i ≤ 2 ^ (ceilLog2I p - 1) :=
    Nat.pow_le_pow_right Nat.two_pos (by omega)
  exact hle.trans_lt (half_lt hp)

theorem dist_two (hi : i < ceilLog2I p) : 2 ^ (ceilLog2I p - i) = 2 * dist p i := by
  unfold dist
  rw [← Nat.pow_succ']
  congr 1
  omega

theorem dist_mul (hi : i < ceilLog2I p) : 2 ^ i * dist p i = 2 ^ (ceilLog2I p - 1) := by
  unfold dist
  rw [← Nat.pow_add]
  congr 1
  omega

theorem src_eq : srcAtStep p r i = (r + dist p i) % p := rfl

theorem src_lt (hp : 2 ≤ p) : srcAtStep p r i < p := Nat.mod_lt _ (by omega)

theorem dst_lt (hp : 2 ≤ p) : dstAtStep p r i < p := Nat.mod_lt _ (by omega)

theorem add_mod_inj {x y : ℕ} (hx : x < p) (hy : y < p) (h : (r + x) % p = (r + y) % p) :
    x = y := by
  have hmod : x ≡ y [MOD p] := Nat.ModEq.add_left_cancel' r h
  exact hmod.eq_of_lt_of_lt hx hy

section

variable (hp : 2 ≤ p)
include hp

theorem dst_src (hr : r < p) : dstAtStep p (srcAtStep p r i) i = r := by
  have hd := dist_lt (i := i) hp
  unfold dstAtStep
  rw [src_eq]
  change (p + (r + dist p i) % p - dist p i) % p = r
  rcases Nat.lt_or_ge (r + dist p i) p with hlt | hge
  · rw [Nat.mod_eq_of_lt hlt, show p + (r + dist p i) - dist p i = r + p by omega,
      Nat.add_mod_right, Nat.mod_eq_of_lt hr]
  · have hwrap : (r + dist p i) % p = r + dist p i - p := by
      rw [Nat.mod_eq_sub_mod hge, Nat.mod_eq_of_lt (by omega)]
    rw [hwrap, show p + (r + dist p i - p) - dist p i = r by omega, Nat.mod_eq_of_lt hr]

theorem src_dst (hr : r < p) : srcAtStep p (dstAtStep p r i) i = r := by
  have hd := dist_lt (i := i) hp
  rw [src_eq]
  change ((p + r - dist p i) % p + dist p i) % p = r
  rw [Nat.mod_add_mod, Nat.sub_add_cancel (by omega), Nat.add_mod_left, Nat.mod_eq_of_lt hr]

theorem dst_eq_iff (hr : r < p) (hq : q < p) : dstAtStep p q i = r ↔ q = srcAtStep p r i := by
  constructor
  · rintro rfl
    exact (src_dst hp hq).symm
  · rintro rfl
    exact dst_src hp hr

theorem src_inj (hi : i < ceilLog2I p) (hj : j < ceilLog2I p)
    (h : srcAtStep p r i = srcAtStep p r j) : i = j := by
  have hdist : dist p i = dist p j := add_mod_inj (dist_lt hp) (dist_lt hp) h
  have hexp := Nat.pow_right_injective (Nat.le_refl 2) hdist
  omega

theorem src_ne (hr : r < p) : srcAtStep p r i ≠ r := by
  intro heq
  have hzero : dist p i = 0 := by
    apply add_mod_inj (dist_lt hp) (by omega)
    rw [Nat.add_zero, Nat.mod_eq_of_lt hr]
    exact heq
  exact absurd hzero dist_pos.ne'

end

/-! ### The blocks of a rank -/

/-- A rank has the blocks at the multiples of `2 ^ (k - step)` from it. -/
def Has (p r i b : ℕ) : Prop := ∃ j < 2 ^ i, b = (r + j * 2 ^ (ceilLog2I p - i)) % p

theorem Has.lt (hp : 2 ≤ p) (h : Has p r i b) : b < p := by
  obtain ⟨j, _, rfl⟩ := h
  exact Nat.mod_lt _ (by omega)

theorem has_zero (hr : r < p) : Has p r 0 b ↔ b = r := by
  unfold Has
  constructor
  · rintro ⟨j, hj, rfl⟩
    obtain rfl : j = 0 := by omega
    rw [Nat.zero_mul, Nat.add_zero, Nat.mod_eq_of_lt hr]
  · rintro rfl
    exact ⟨0, Nat.one_pos, by rw [Nat.zero_mul, Nat.add_zero, Nat.mod_eq_of_lt hr]⟩

/-- The even multiples of the distance are the rank's, the odd ones its source's. -/
theorem has_succ (hi : i < ceilLog2I p) :
    Has p r (i + 1) b ↔ Has p r i b ∨ Has p (srcAtStep p r i) i b := by
  have hstep : 2 ^ (ceilLog2I p - (i + 1)) = dist p i := by
    unfold dist
    congr 1
  unfold Has
  rw [hstep, dist_two hi, src_eq]
  constructor
  · rintro ⟨j, hj, rfl⟩
    rw [Nat.pow_succ] at hj
    obtain ⟨m, rfl | rfl⟩ : ∃ m, j = 2 * m ∨ j = 2 * m + 1 := ⟨j / 2, by omega⟩
    · left
      exact ⟨m, by omega, by rw [Nat.mul_comm 2 m, Nat.mul_assoc]⟩
    · right
      refine ⟨m, by omega, ?_⟩
      rw [Nat.mod_add_mod, Nat.add_mul, Nat.mul_comm 2 m, Nat.mul_assoc, Nat.one_mul,
        Nat.add_comm (m * _), Nat.add_assoc]
  · rintro (⟨m, hm, rfl⟩ | ⟨m, hm, rfl⟩)
    · refine ⟨2 * m, ?_, by rw [Nat.mul_comm 2 m, Nat.mul_assoc]⟩
      rw [Nat.pow_succ]
      omega
    · refine ⟨2 * m + 1, ?_, ?_⟩
      · rw [Nat.pow_succ]
        omega
      · rw [Nat.mod_add_mod, Nat.add_mul, Nat.mul_comm 2 m, Nat.mul_assoc, Nat.one_mul,
          Nat.add_comm (m * _), Nat.add_assoc]

theorem has_last (hp : 2 ≤ p) (hr : r < p) (hb : b < p) : Has p r (ceilLog2I p) b := by
  have hle := le_pow hp
  unfold Has
  rw [Nat.sub_self, Nat.pow_zero]
  rcases Nat.lt_or_ge b r with hlt | hge
  · refine ⟨b + p - r, by omega, ?_⟩
    rw [Nat.mul_one, show r + (b + p - r) = b + p by omega, Nat.add_mod_right,
      Nat.mod_eq_of_lt hb]
  · refine ⟨b - r, by omega, ?_⟩
    rw [Nat.mul_one, Nat.add_sub_cancel' hge, Nat.mod_eq_of_lt hb]

variable {l : List Bool}

theorem getD_set {a : ℕ} :
    (l.set a true).getD b false = true ↔ l.getD b false = true ∨ b < l.length ∧ a = b := by
  rw [List.getD_eq_getElem?_getD, List.getD_eq_getElem?_getD, List.getElem?_set]
  by_cases hab : a = b
  · subst hab
    rw [if_pos rfl]
    by_cases hlt : a < l.length
    · simp [hlt]
    · simp [hlt]
  · rw [if_neg hab]
    simp [hab]

theorem getD_foldl_set {f : ℕ → ℕ} {offsets : List ℕ} :
    (offsets.foldl (fun state offset => state.set (f offset) true) l).getD b false = true ↔
      l.getD b false = true ∨ b < l.length ∧ ∃ offset ∈ offsets, f offset = b := by
  induction offsets generalizing l with
  | nil => simp only [List.foldl_nil, List.not_mem_nil, false_and, exists_false, and_false, or_false]
  | cons offset offsets ih =>
    rw [List.foldl_cons, ih, List.length_set, getD_set]
    simp only [List.mem_cons, exists_eq_or_imp]
    rw [or_assoc, ← and_or_left]

theorem mem_offsetsAtStep {k step o : ℕ} (hstep : step ≤ k) :
    o ∈ offsetsAtStep k step ↔ ∃ j, 0 < j ∧ j < 2 ^ step ∧ o = j * 2 ^ (k - step) := by
  have hpow : 2 ^ k = 2 ^ step * 2 ^ (k - step) := by
    rw [← Nat.pow_add]
    congr 1
    omega
  have hpos : 0 < 2 ^ (k - step) := Nat.two_pow_pos _
  have hcount : (2 ^ k - 1) / 2 ^ (k - step) = 2 ^ step - 1 := by
    have hone : 1 ≤ 2 ^ step := Nat.two_pow_pos _
    apply Nat.div_eq_of_lt_le
    · rw [hpow, Nat.sub_mul]
      omega
    · rw [hpow, Nat.sub_add_cancel hone]
      have : 0 < 2 ^ step * 2 ^ (k - step) := Nat.mul_pos hone hpos
      omega
  unfold offsetsAtStep
  simp only [hcount, List.mem_range']
  constructor
  · rintro ⟨m, hm, rfl⟩
    exact ⟨m + 1, Nat.succ_pos m, by omega, by rw [Nat.succ_mul, Nat.mul_comm, Nat.add_comm]⟩
  · rintro ⟨j, hj, hlt, rfl⟩
    refine ⟨j - 1, by omega, ?_⟩
    rw [Nat.mul_sub, Nat.mul_one, Nat.mul_comm (2 ^ (k - step))]
    have : 2 ^ (k - step) ≤ j * 2 ^ (k - step) := Nat.le_mul_of_pos_left _ hj
    omega

theorem getD_replicate : (List.replicate p false).getD b false = false := by
  rw [List.getD_eq_getElem?_getD, List.getElem?_replicate]
  split <;> rfl

theorem stateAtStep_iff (hp : 2 ≤ p) (hr : r < p) (hi : i ≤ ceilLog2I p) :
    (stateAtStep p r i).getD b false = true ↔ Has p r i b := by
  unfold stateAtStep Has
  rw [getD_foldl_set, getD_set, List.length_set, List.length_replicate]
  simp only [mem_offsetsAtStep hi]
  constructor
  · rintro ((hnone | ⟨hb, rfl⟩) | ⟨hb, offset, ⟨j, _, hlt, rfl⟩, heq⟩)
    · rw [getD_replicate] at hnone
      cases hnone
    · exact ⟨0, Nat.two_pow_pos i, by rw [Nat.zero_mul, Nat.add_zero, Nat.mod_eq_of_lt hb]⟩
    · exact ⟨j, hlt, heq.symm⟩
  · rintro ⟨j, hlt, rfl⟩
    have hb : (r + j * 2 ^ (ceilLog2I p - i)) % p < p := Nat.mod_lt _ (by omega)
    cases j with
    | zero =>
      left
      right
      exact ⟨hb, by rw [Nat.zero_mul, Nat.add_zero, Nat.mod_eq_of_lt hr]⟩
    | succ j => exact .inr ⟨hb, _, ⟨j + 1, Nat.succ_pos j, hlt, rfl⟩, rfl⟩

theorem mem_sendsAtStep (hp : 2 ≤ p) (hr : r < p) (hi : i ≤ ceilLog2I p) :
    b ∈ sendsAtStep p r i ↔ Has p r i b ∧ ¬ Has p (dstAtStep p r i) i b := by
  unfold sendsAtStep
  simp only [List.mem_filter, List.mem_range, Bool.and_eq_true, Bool.not_eq_true',
    stateAtStep_iff hp hr hi]
  rw [← Bool.not_eq_true, stateAtStep_iff hp (dst_lt hp) hi]
  constructor
  · exact fun h => h.2
  · exact fun h => ⟨h.1.lt hp, h⟩

theorem nodup_sendsAtStep : (sendsAtStep p r i).Nodup := List.nodup_range.filter _

section

variable (hp : 2 ≤ p) (hr : r < p)
include hp hr

theorem has_succ_iff (hi : i < ceilLog2I p) :
    Has p r (i + 1) b ↔ Has p r i b ∨ b ∈ sendsAtStep p (srcAtStep p r i) i := by
  rw [has_succ hi, mem_sendsAtStep hp (src_lt hp) hi.le, dst_src hp hr]
  by_cases hold : Has p r i b <;> simp [hold]

theorem not_has_of_mem (hi : i < ceilLog2I p)
    (hb : b ∈ sendsAtStep p (srcAtStep p r i) i) : ¬ Has p r i b := by
  rw [mem_sendsAtStep hp (src_lt hp) hi.le, dst_src hp hr] at hb
  exact hb.2

theorem Has.mono (hij : i ≤ j) (hj : j ≤ ceilLog2I p) (h : Has p r i b) : Has p r j b := by
  induction hij with
  | refl => exact h
  | @step m hle ih => exact (has_succ_iff hp hr (by omega)).mpr (.inl (ih (by omega)))

theorem exists_step (hi : i ≤ ceilLog2I p) (h : Has p r i b) :
    b = r ∨ ∃ j < i, b ∈ sendsAtStep p (srcAtStep p r j) j := by
  induction i with
  | zero => exact .inl ((has_zero hr).mp h)
  | succ i ih =>
    rcases (has_succ_iff hp hr hi).mp h with hold | hnew
    · rcases ih (by omega) hold with hown | ⟨j, hj, hb⟩
      · exact .inl hown
      · exact .inr ⟨j, Nat.lt_succ_of_lt hj, hb⟩
    · exact .inr ⟨i, Nat.lt_succ_self i, hnew⟩

theorem step_unique (hi : i < ceilLog2I p) (hj : j < ceilLog2I p)
    (hbi : b ∈ sendsAtStep p (srcAtStep p r i) i) (hbj : b ∈ sendsAtStep p (srcAtStep p r j) j) :
    i = j := by
  have hno : ∀ {i j}, i < j → j < ceilLog2I p → b ∈ sendsAtStep p (srcAtStep p r i) i →
      b ∉ sendsAtStep p (srcAtStep p r j) j := by
    intro i j hlt hj hbi hbj
    have hhas := (has_succ_iff hp hr (hlt.trans hj)).mpr (.inr hbi)
    exact not_has_of_mem hp hr hj hbj (hhas.mono hp hr hlt hj.le)
  rcases Nat.lt_trichotomy i j with hlt | heq | hgt
  · exact absurd hbj (hno hlt hj hbi)
  · exact heq
  · exact absurd hbi (hno hgt hi hbj)

theorem own_not_mem (hi : i < ceilLog2I p) : r ∉ sendsAtStep p (srcAtStep p r i) i := by
  intro hmem
  have hown := (has_zero hr).mpr (Eq.refl r)
  exact not_has_of_mem hp hr hi hmem (hown.mono hp hr (Nat.zero_le i) hi.le)

theorem sendsAtStep_zero : sendsAtStep p r 0 = [r] := by
  have hmem : ∀ b, b ∈ sendsAtStep p r 0 ↔ b ∈ [r] := by
    intro b
    rw [mem_sendsAtStep hp hr (Nat.zero_le _), has_zero hr, has_zero (dst_lt hp),
      List.mem_singleton]
    constructor
    · exact fun h => h.1
    · rintro rfl
      refine ⟨rfl, ?_⟩
      intro hdst
      have hself := src_ne (i := 0) hp hr
      rw [← (dst_eq_iff hp hr hr).mp hdst.symm] at hself
      exact hself rfl
  exact List.perm_singleton.mp
    ((List.perm_ext_iff_of_nodup nodup_sendsAtStep (List.nodup_singleton r)).mpr hmem)

end

theorem has_of_closed {s : ℕ} (hclosed : ∀ b, Has p (srcAtStep p s i) i b → Has p s i b) (m : ℕ) :
    Has p s i ((s + m * dist p i) % p) := by
  induction m with
  | zero =>
    refine ⟨0, Nat.two_pow_pos i, ?_⟩
    rw [Nat.zero_mul, Nat.zero_mul]
  | succ m ih =>
    obtain ⟨j, hj, heq⟩ := ih
    apply hclosed
    refine ⟨j, hj, ?_⟩
    rw [src_eq, Nat.succ_mul, ← Nat.add_assoc, ← Nat.mod_add_mod, heq, Nat.mod_add_mod,
      Nat.mod_add_mod]
    congr 1
    omega

/-- The peer of a step lacks something: else the receiver's blocks were closed under going on by the
distance, and that leads to more blocks than it has. -/
theorem sends_ne_nil (hp : 2 ≤ p) (hr : r < p) (hi : i < ceilLog2I p) : sendsAtStep p r i ≠ [] := by
  intro hnil
  have hclosed : ∀ b, Has p (srcAtStep p (dstAtStep p r i) i) i b → Has p (dstAtStep p r i) i b := by
    intro b hb
    rw [src_dst hp hr] at hb
    by_contra hno
    have hmem := (mem_sendsAtStep hp hr hi.le).mpr ⟨hb, hno⟩
    rw [hnil] at hmem
    cases hmem
  have hs : dstAtStep p r i < p := dst_lt hp
  generalize dstAtStep p r i = s at hclosed hs
  have hsub : (Finset.range (2 ^ i + 1)).image (fun m => (s + m * dist p i) % p) ⊆
      (Finset.range (2 ^ i)).image (fun j => (s + j * 2 ^ (ceilLog2I p - i)) % p) := by
    intro b hb
    obtain ⟨m, _, rfl⟩ := Finset.mem_image.mp hb
    obtain ⟨j, hj, heq⟩ := has_of_closed hclosed m
    exact Finset.mem_image.mpr ⟨j, Finset.mem_range.mpr hj, heq.symm⟩
  have hinj : Set.InjOn (fun m => (s + m * dist p i) % p) (Finset.range (2 ^ i + 1)) := by
    have hbound : ∀ m ∈ Finset.range (2 ^ i + 1), m * dist p i < p := by
      intro m hm
      rw [Finset.mem_range] at hm
      have hle : m * dist p i ≤ 2 ^ i * dist p i := Nat.mul_le_mul_right _ (by omega)
      rw [dist_mul hi] at hle
      exact hle.trans_lt (half_lt hp)
    intro m hm m' hm' heq
    exact Nat.eq_of_mul_eq_mul_right dist_pos (add_mod_inj (hbound m hm) (hbound m' hm') heq)
  have hcard := Finset.card_le_card hsub
  rw [Finset.card_image_of_injOn hinj, Finset.card_range] at hcard
  have hle := Finset.card_image_le (s := Finset.range (2 ^ i))
    (f := fun j => (s + j * 2 ^ (ceilLog2I p - i)) % p)
  rw [Finset.card_range] at hle
  omega
end TorchComms.Algos.AllGatherBrucksFF
