import TorchComms.Foundation.MachineWords
import Mathlib.Algebra.BigOperators.Group.Finset.Piecewise

/-! # The copy of a group of thread blocks

`copyUnroll` gives the indices of a buffer to the thread blocks in rows of `numPerBlock`. A thread
takes every `blockDim`-th index of a row. The incomplete last row goes to one block.
-/
namespace TorchComms.Algos

open Foundation

/-- The indices that thread `t` of a block stores to. -/
def copyThread (blockDim kUnroll count groupIdx nGroups t : ℕ) : List ℕ :=
  let numPerBlock := blockDim * kUnroll
  let limitUnroll := count / numPerBlock * numPerBlock
  ((strideLoop limitUnroll (nGroups * numPerBlock) (groupIdx * numPerBlock + t)).flatMap fun i =>
    (List.range kUnroll).map fun j => i + j * blockDim) ++
  if count ≠ limitUnroll ∧ groupIdx = limitUnroll / numPerBlock % nGroups then
    strideLoop count blockDim (limitUnroll + t)
  else []

/-- The indices that the threads of a block store to. -/
def copyUnroll (blockDim kUnroll count groupIdx nGroups : ℕ) : List ℕ :=
  (List.range blockDim).flatMap (copyThread blockDim kUnroll count groupIdx nGroups)

/-- `copy` by a group, with `kTPer16Bytes` elements in 16 bytes. -/
def copy (blockDim kTPer16Bytes count groupIdx nGroups : ℕ) : List ℕ :=
  if nGroups ≤ groupIdx then []
  else copyUnroll blockDim (kTPer16Bytes * 4) count groupIdx nGroups

variable {blockDim kUnroll kTPer16Bytes count groupIdx nGroups t x : ℕ}

theorem row_column (ht : t < blockDim) {q j : ℕ} (hj : j < kUnroll) :
    (q * (blockDim * kUnroll) + t + j * blockDim) / (blockDim * kUnroll) = q ∧
      (q * (blockDim * kUnroll) + t + j * blockDim) % blockDim = t := by
  have hle : (j + 1) * blockDim ≤ kUnroll * blockDim := Nat.mul_le_mul_right _ hj
  have hlt : t + j * blockDim < blockDim * kUnroll := by
    rw [Nat.add_mul, Nat.one_mul] at hle
    rw [Nat.mul_comm blockDim]
    omega
  constructor
  · rw [Nat.add_assoc, Nat.mul_comm q, Nat.mul_add_div (by omega), Nat.div_eq_of_lt hlt,
      Nat.add_zero]
  · rw [Nat.add_mul_mod_self_right, Nat.mul_comm q, Nat.mul_assoc, Nat.mul_add_mod,
      Nat.mod_eq_of_lt ht]

theorem eq_row_column (blockDim kUnroll x : ℕ) :
    x = x / (blockDim * kUnroll) * (blockDim * kUnroll) + x % blockDim +
      x % (blockDim * kUnroll) / blockDim * blockDim := by
  have hrow := Nat.div_add_mod x (blockDim * kUnroll)
  have hcolumn := Nat.div_add_mod (x % (blockDim * kUnroll)) blockDim
  rw [Nat.mod_mul_right_mod] at hcolumn
  rw [Nat.mul_comm (x / _), Nat.mul_comm (_ / blockDim)]
  omega

theorem mem_rows (hN : t < blockDim * kUnroll) (hg : groupIdx < nGroups) {limit i : ℕ} :
    i ∈ strideLoop limit (nGroups * (blockDim * kUnroll)) (groupIdx * (blockDim * kUnroll) + t) ↔
      i < limit ∧ i % (blockDim * kUnroll) = t ∧ i / (blockDim * kUnroll) % nGroups = groupIdx := by
  generalize blockDim * kUnroll = N at hN ⊢
  have hpos : 0 < nGroups * N := Nat.mul_pos (by omega) (by omega)
  have hstart : groupIdx * N + t < nGroups * N := by
    have hle : (groupIdx + 1) * N ≤ nGroups * N := Nat.mul_le_mul_right _ hg
    rw [Nat.add_mul, Nat.one_mul] at hle
    omega
  rw [mem_strideLoop hpos, Nat.mod_eq_of_lt hstart, Nat.mul_comm nGroups, Nat.mod_mul]
  constructor
  · rintro ⟨-, hlt, hmod⟩
    have hlow : i % N = t := by
      have h := congrArg (· % N) hmod
      simpa [Nat.mul_add_mod, Nat.mod_eq_of_lt hN, Nat.mul_comm groupIdx] using h
    have hhigh : N * (i / N % nGroups) = N * groupIdx := by
      rw [Nat.mul_comm N groupIdx]
      omega
    exact ⟨hlt, hlow, Nat.eq_of_mul_eq_mul_left (by omega) hhigh⟩
  · rintro ⟨hlt, hlow, hhigh⟩
    have hle : N * (i / N % nGroups) ≤ N * (i / N) := Nat.mul_le_mul_left _ (Nat.mod_le _ _)
    have hrow := Nat.div_add_mod i N
    rw [hhigh] at hle ⊢
    rw [Nat.mul_comm groupIdx]
    exact ⟨by omega, hlt, by omega⟩

theorem mem_unrolled (hdim : 0 < blockDim) (hunroll : 0 < kUnroll) (hg : groupIdx < nGroups)
    (ht : t < blockDim) {n : ℕ} :
    x ∈ (strideLoop (n * (blockDim * kUnroll)) (nGroups * (blockDim * kUnroll))
        (groupIdx * (blockDim * kUnroll) + t)).flatMap
        (fun i => (List.range kUnroll).map fun j => i + j * blockDim) ↔
      x < n * (blockDim * kUnroll) ∧ x / (blockDim * kUnroll) % nGroups = groupIdx ∧
        x % blockDim = t := by
  have hpos : 0 < blockDim * kUnroll := Nat.mul_pos hdim hunroll
  have hN : t < blockDim * kUnroll := Nat.lt_of_lt_of_le ht (Nat.le_mul_of_pos_right _ hunroll)
  simp only [List.mem_flatMap, mem_rows hN hg, List.mem_map, List.mem_range]
  constructor
  · rintro ⟨i, ⟨hlt, hlow, hhigh⟩, j, hj, rfl⟩
    have hi := Nat.div_add_mod i (blockDim * kUnroll)
    rw [hlow, Nat.mul_comm] at hi
    obtain ⟨hrow, hcolumn⟩ := row_column ht (q := i / (blockDim * kUnroll)) hj
    rw [hi] at hrow hcolumn
    rw [← Nat.div_lt_iff_lt_mul hpos] at hlt ⊢
    rw [hrow]
    exact ⟨hlt, hhigh, hcolumn⟩
  · rintro ⟨hlt, hhigh, rfl⟩
    have hj : x % (blockDim * kUnroll) / blockDim < kUnroll :=
      Nat.div_lt_of_lt_mul (Nat.mod_lt _ hpos)
    have hx := eq_row_column blockDim kUnroll x
    obtain ⟨hrow, -⟩ := row_column ht (q := x / (blockDim * kUnroll)) (Nat.zero_lt_of_lt hj)
    refine ⟨x / (blockDim * kUnroll) * (blockDim * kUnroll) + x % blockDim, ⟨?_, ?_, ?_⟩, _, hj, ?_⟩
    · omega
    · rw [Nat.mul_add_mod', Nat.mod_eq_of_lt hN]
    · rw [← hhigh]
      simpa using congrArg (· % nGroups) hrow
    · exact hx.symm

theorem mem_rest (ht : t < blockDim) {n : ℕ} :
    x ∈ strideLoop count blockDim (n * (blockDim * kUnroll) + t) ↔
      n * (blockDim * kUnroll) ≤ x ∧ x < count ∧ x % blockDim = t := by
  have hbase : n * (blockDim * kUnroll) = blockDim * (n * kUnroll) := Nat.mul_left_comm ..
  rw [mem_strideLoop (by omega), hbase, Nat.mul_add_mod, Nat.mod_eq_of_lt ht]
  constructor
  · rintro ⟨hle, hlt, hmod⟩
    exact ⟨by omega, hlt, hmod⟩
  · rintro ⟨hle, hlt, hmod⟩
    refine ⟨?_, hlt, hmod⟩
    have hdvd : (x - blockDim * (n * kUnroll)) % blockDim = x % blockDim :=
      Nat.sub_mul_mod hle
    have hmodle := Nat.mod_le (x - blockDim * (n * kUnroll)) blockDim
    omega

theorem mem_copyThread (hunroll : 0 < kUnroll) (hg : groupIdx < nGroups) (ht : t < blockDim) :
    x ∈ copyThread blockDim kUnroll count groupIdx nGroups t ↔
      x < count ∧ x / (blockDim * kUnroll) % nGroups = groupIdx ∧ x % blockDim = t := by
  have hpos : 0 < blockDim * kUnroll := Nat.mul_pos (by omega) hunroll
  have hlimit := Nat.div_mul_le_self count (blockDim * kUnroll)
  rw [copyThread, List.mem_append, mem_unrolled (by omega) hunroll hg ht]
  by_cases hx : x < count / (blockDim * kUnroll) * (blockDim * kUnroll)
  · -- a complete row
    have hnot : x ∉ strideLoop count blockDim
        (count / (blockDim * kUnroll) * (blockDim * kUnroll) + t) := by
      rw [mem_rest ht]
      omega
    have hlt : x < count := by omega
    simp only [hx, hlt, true_and]
    rw [or_iff_left]
    split_ifs
    · exact hnot
    · exact List.not_mem_nil
  · -- the last row
    simp only [hx, false_and, false_or, Nat.mul_div_cancel _ hpos]
    have hrow : x < count → x / (blockDim * kUnroll) = count / (blockDim * kUnroll) := by
      intro hlt
      exact Nat.le_antisymm (Nat.div_le_div_right (by omega))
        ((Nat.le_div_iff_mul_le hpos).2 (by omega))
    split_ifs with hif
    · rw [mem_rest ht]
      constructor
      · rintro ⟨-, hlt, hmod⟩
        exact ⟨hlt, by rw [hrow hlt, hif.2], hmod⟩
      · rintro ⟨hlt, -, hmod⟩
        exact ⟨by omega, hlt, hmod⟩
    · simp only [List.not_mem_nil, false_iff]
      rintro ⟨hlt, hgroup, -⟩
      rw [hrow hlt] at hgroup
      exact hif ⟨by omega, hgroup.symm⟩

theorem nodup_copyThread (hunroll : 0 < kUnroll) (hg : groupIdx < nGroups) (ht : t < blockDim) :
    (copyThread blockDim kUnroll count groupIdx nGroups t).Nodup := by
  have hN : t < blockDim * kUnroll := Nat.lt_of_lt_of_le ht (Nat.le_mul_of_pos_right _ hunroll)
  rw [copyThread, List.nodup_append']
  refine ⟨?_, ?_, ?_⟩
  · rw [List.nodup_flatMap]
    refine ⟨?_, ?_⟩
    · intro i hi
      refine List.nodup_range.map ?_
      intro j j' heq
      exact Nat.eq_of_mul_eq_mul_right (by omega) (Nat.add_left_cancel heq)
    · refine nodup_strideLoop.imp_of_mem ?_
      intro i i' hi hi' hne x hx hx'
      -- the rows of two starts are apart
      rw [mem_rows hN hg] at hi hi'
      obtain ⟨j, hj, rfl⟩ := List.mem_map.1 hx
      obtain ⟨j', hj', heq⟩ := List.mem_map.1 hx'
      have h := Nat.div_add_mod i (blockDim * kUnroll)
      have h' := Nat.div_add_mod i' (blockDim * kUnroll)
      rw [hi.2.1, Nat.mul_comm] at h
      rw [hi'.2.1, Nat.mul_comm] at h'
      obtain ⟨hrow, -⟩ := row_column ht (q := i / (blockDim * kUnroll)) (List.mem_range.1 hj)
      obtain ⟨hrow', -⟩ := row_column ht (q := i' / (blockDim * kUnroll)) (List.mem_range.1 hj')
      rw [h] at hrow
      rw [h', heq] at hrow'
      apply hne
      rw [← h, ← h', ← hrow, hrow']
  · split_ifs
    · exact nodup_strideLoop
    · exact List.nodup_nil
  · intro x hx hx'
    rw [mem_unrolled (by omega) hunroll hg ht] at hx
    split_ifs at hx'
    · rw [mem_rest ht] at hx'
      omega
    · exact List.not_mem_nil hx'

theorem mem_copy (hdim : 0 < blockDim) (hper : 0 < kTPer16Bytes) :
    x ∈ copy blockDim kTPer16Bytes count groupIdx nGroups ↔
      groupIdx < nGroups ∧ x < count ∧
        x / (blockDim * (kTPer16Bytes * 4)) % nGroups = groupIdx := by
  rw [copy]
  split_ifs with hg
  · simp only [List.not_mem_nil, false_iff]
    omega
  · have hg : groupIdx < nGroups := by omega
    rw [copyUnroll, List.mem_flatMap]
    constructor
    · rintro ⟨t, ht, hx⟩
      rw [mem_copyThread (by omega) hg (List.mem_range.1 ht)] at hx
      exact ⟨hg, hx.1, hx.2.1⟩
    · rintro ⟨-, hlt, hgroup⟩
      have ht := Nat.mod_lt x hdim
      refine ⟨x % blockDim, List.mem_range.2 ht, ?_⟩
      rw [mem_copyThread (by omega) hg ht]
      exact ⟨hlt, hgroup, rfl⟩

theorem nodup_copy (hper : 0 < kTPer16Bytes) :
    (copy blockDim kTPer16Bytes count groupIdx nGroups).Nodup := by
  rw [copy]
  split_ifs with hg
  · exact List.nodup_nil
  · have hg : groupIdx < nGroups := by omega
    rw [copyUnroll, List.nodup_flatMap]
    refine ⟨fun t ht => nodup_copyThread (by omega) hg (List.mem_range.1 ht), ?_⟩
    refine List.nodup_range.imp_of_mem ?_
    intro t t' ht ht' hne x hx hx'
    rw [mem_copyThread (by omega) hg (List.mem_range.1 ht)] at hx
    rw [mem_copyThread (by omega) hg (List.mem_range.1 ht')] at hx'
    exact hne (hx.2.2.symm.trans hx'.2.2)

theorem sum_count_copy (hdim : 0 < blockDim) (hper : 0 < kTPer16Bytes) (hgroups : 0 < nGroups)
    (hx : x < count) :
    ∑ g ∈ Finset.range nGroups, (copy blockDim kTPer16Bytes count g nGroups).count x = 1 := by
  have hcount : ∀ g ∈ Finset.range nGroups,
      (copy blockDim kTPer16Bytes count g nGroups).count x =
        if x / (blockDim * (kTPer16Bytes * 4)) % nGroups = g then 1 else 0 := by
    intro g hg
    have hmem : x ∈ copy blockDim kTPer16Bytes count g nGroups ↔ _ := mem_copy hdim hper
    simp only [Finset.mem_range.1 hg, hx, true_and] at hmem
    rw [(nodup_copy hper).count]
    simp only [hmem]
  rw [Finset.sum_congr rfl hcount, Finset.sum_ite_eq, if_pos]
  exact Finset.mem_range.2 (Nat.mod_lt _ hgroups)

end TorchComms.Algos
