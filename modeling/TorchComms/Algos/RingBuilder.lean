import TorchComms.Foundation.Cutting
import TorchComms.Foundation.Rotation
import TorchComms.Foundation.Scatter

/-! # The multi-flat-ring builder

Ring 0 lists the ranks node by node. Each further ring is the one before it with one more column, a
local rank on all nodes, moved by one node. `ringPrev` and `ringNext` are tables by ring and rank;
ranks and sizes do not overflow.
-/
namespace TorchComms.Algos.Topo

open Foundation

/-! ### The code -/

/-- `std::swap` of two elements. -/
def swap (ring : List ℕ) (i j : ℕ) : List ℕ :=
  (ring.set i (ring.getD j 0)).set j (ring.getD i 0)

def firstRing (nNodes nLocalRanks nRanks : ℕ) : List ℕ :=
  (List.range nNodes).foldl (fun ring n =>
    (List.range' 1 (nLocalRanks - 1)).foldl
      (fun ring i => ring.set (n * nLocalRanks + i) (n * nLocalRanks + i))
      (ring.set (n * nLocalRanks) (n * nLocalRanks)))
    (List.replicate nRanks 0)

/-- The swaps between neighbouring nodes that make ring `lr` out of the ring before it. -/
def balanced (nNodes nLocalRanks lr : ℕ) (ring : List ℕ) : List ℕ :=
  (List.range (nNodes - 1)).foldl (fun ring n =>
    swap ring (nLocalRanks - lr + n * nLocalRanks) (nLocalRanks - lr + (n + 1) * nLocalRanks)) ring

def flatRing (nNodes nLocalRanks nRanks : ℕ) : ℕ → List ℕ
  | 0 => firstRing nNodes nLocalRanks nRanks
  | lr + 1 => balanced nNodes nLocalRanks (lr + 1) (flatRing nNodes nLocalRanks nRanks lr)

def getMultiFlatRing (nNodes nLocalRanks nRanks : ℕ) : List (List ℕ) :=
  (List.range nLocalRanks).map (flatRing nNodes nLocalRanks nRanks)

structure MultiFlatRing where
  ringPrev : ℕ × ℕ → ℕ
  ringNext : ℕ × ℕ → ℕ
  rings : ℕ → List ℕ

/-- The position of the rank in the ring. -/
def position (nRanks : ℕ) (ring : List ℕ) (r : ℕ) : Option ℕ :=
  (List.range nRanks).find? fun i => ring[i]? = some r

/-- The body of the loop over ranks `r` and rings `c`. -/
def setNeighbours (nRanks : ℕ) (out : MultiFlatRing) (r c : ℕ) : MultiFlatRing :=
  match position nRanks (out.rings c) r with
  | none => out
  | some pos =>
    { out with
      ringPrev := Function.update out.ringPrev (c, r)
        ((out.rings c).getD ((pos + nRanks - 1) % nRanks) 0)
      ringNext := Function.update out.ringNext (c, r)
        ((out.rings c).getD ((pos + 1) % nRanks) 0) }

def copyRings (baseRings : List (List ℕ)) (nRings : ℕ) (rings : ℕ → List ℕ) : ℕ → List ℕ :=
  scatter id (fun i => baseRings.getD (i % baseRings.length) [])
    (List.range' (min baseRings.length nRings) (nRings - min baseRings.length nRings))
    (scatter id (fun i => baseRings.getD i []) (List.range (min baseRings.length nRings)) rings)

def buildMultiFlatRing (nLocalRanks nRanks nNodes nRings : ℕ) (out : MultiFlatRing) :
    MultiFlatRing :=
  (List.range nRanks ×ˢ List.range nRings).foldl (fun out rc => setNeighbours nRanks out rc.1 rc.2)
    { out with rings := copyRings (getMultiFlatRing nNodes nLocalRanks nRanks) nRings out.rings }

/-! ### A ring by nodes and local ranks -/

section Cells

variable {n size : ℕ} {f : ℕ → ℕ → ℕ}

/-- The list with `f b i` at place `i` of its block `b`. -/
def cells (n size : ℕ) (f : ℕ → ℕ → ℕ) : List ℕ :=
  (List.range (n * size)).map fun p => f (p / size) (p % size)

@[simp] theorem length_cells : (cells n size f).length = n * size := by
  rw [cells, List.length_map, List.length_range]

theorem getElem?_cells {b i : ℕ} (hb : b < n) (hi : i < size) :
    (cells n size f)[b * size + i]? = some (f b i) := by
  rw [cells, List.getElem?_map, List.getElem?_range (cell_lt hb hi), Option.map_some, cell_div hi,
    cell_mod hi]

theorem exists_cell {p : ℕ} (hp : p < n * size) : ∃ b i, b < n ∧ i < size ∧ p = b * size + i := by
  have hsize : 0 < size := Nat.pos_of_mul_pos_left (Nat.zero_lt_of_lt hp)
  refine ⟨p / size, p % size, Nat.div_lt_of_lt_mul (Nat.mul_comm n size ▸ hp), Nat.mod_lt p hsize, ?_⟩
  rw [Nat.mul_comm]
  exact (Nat.div_add_mod p size).symm

theorem eq_cells {ring : List ℕ} (hlength : ring.length = n * size)
    (hget : ∀ b < n, ∀ i < size, ring[b * size + i]? = some (f b i)) : ring = cells n size f := by
  apply List.ext_getElem?
  intro p
  rcases Nat.lt_or_ge p (n * size) with hlt | hge
  · rcases exists_cell hlt with ⟨b, i, hb, hi, rfl⟩
    rw [hget b hb i hi, getElem?_cells hb hi]
  · rw [List.getElem?_eq_none (by omega), List.getElem?_eq_none (by rw [length_cells]; omega)]

theorem cells_congr {g : ℕ → ℕ → ℕ} (h : ∀ b < n, ∀ i < size, f b i = g b i) :
    cells n size f = cells n size g := by
  apply eq_cells length_cells
  intro b hb i hi
  rw [getElem?_cells hb hi, h b hb i hi]

theorem swap_cells {a b pos : ℕ} (ha : a < n) (hb : b < n) (hpos : pos < size) :
    swap (cells n size f) (pos + a * size) (pos + b * size) =
      cells n size fun m i => f (if i = pos then Equiv.swap a b m else m) i := by
  have hget : ∀ {m}, m < n → (cells n size f).getD (pos + m * size) 0 = f m pos := by
    intro m hm
    rw [Nat.add_comm, List.getD_eq_getElem?_getD, getElem?_cells hm hpos]
    rfl
  unfold swap
  rw [hget ha, hget hb]
  apply eq_cells
  · rw [List.length_set, List.length_set, length_cells]
  · intro m hm i hi
    have hacell := cell_lt ha hpos
    have hbcell := cell_lt hb hpos
    rw [List.getElem?_set, List.getElem?_set, List.length_set, length_cells, getElem?_cells hm hi,
      Nat.add_comm pos, Nat.add_comm pos]
    simp only [cell_inj hpos hi, hacell, hbcell, if_true]
    by_cases hcol : i = pos
    · rw [hcol, Equiv.swap_apply_def]
      simp only [and_true, if_true, eq_comm]
      split_ifs with hmb hma
      · rw [hma, hmb]
      · rfl
      · rfl
      · rfl
    · rw [if_neg fun h => hcol h.2.symm, if_neg fun h => hcol h.2.symm, if_neg hcol]

/-- The node whose rank is at node `m` after the first `k` swaps of a column. -/
def shifted (k m : ℕ) : ℕ := if m < k then m + 1 else if m = k then 0 else m

theorem shifted_swap (k m : ℕ) : shifted k (Equiv.swap k (k + 1) m) = shifted (k + 1) m := by
  rw [Equiv.swap_apply_def]
  unfold shifted
  split_ifs <;> omega

theorem shifted_last {m : ℕ} (hm : m < n) : shifted (n - 1) m = (m + 1) % n := by
  unfold shifted
  split_ifs with hlt heq
  · rw [Nat.mod_eq_of_lt (by omega)]
  · rw [show m + 1 = n by omega, Nat.mod_self]
  · omega

theorem swaps_cells {pos : ℕ} (hpos : pos < size) {k : ℕ} (hk : k ≤ n - 1) :
    (List.range k).foldl (fun ring n => swap ring (pos + n * size) (pos + (n + 1) * size))
        (cells n size f) =
      cells n size fun m i => f (if i = pos then shifted k m else m) i := by
  induction k with
  | zero =>
    apply cells_congr
    intro b _ i _
    rcases Nat.eq_zero_or_pos b with rfl | hb
    · simp [shifted]
    · simp [shifted, hb.ne']
  | succ k ih =>
    rw [List.range_succ, List.foldl_append, ih (by omega)]
    change swap (cells n size _) _ _ = _
    rw [swap_cells (by omega) (by omega) hpos]
    apply cells_congr
    intro b _ i _
    split
    · rw [shifted_swap]
    · rfl

end Cells

/-! ### The rings -/

/-- Stores of places at themselves. -/
def stamp (ps : List ℕ) (ring : List ℕ) : List ℕ := ps.foldl (fun ring p => ring.set p p) ring

theorem length_stamp (ps ring : List ℕ) : (stamp ps ring).length = ring.length := by
  induction ps generalizing ring with
  | nil => rfl
  | cons p ps ih => rw [stamp, List.foldl_cons, ← stamp, ih, List.length_set]

theorem getElem?_stamp {ps ring : List ℕ} {p : ℕ} (hlt : p < ring.length)
    (h : p ∈ ps ∨ ring[p]? = some p) : (stamp ps ring)[p]? = some p := by
  induction ps generalizing ring with
  | nil =>
    rcases h with hmem | hget
    · cases hmem
    · exact hget
  | cons q ps ih =>
    rw [stamp, List.foldl_cons, ← stamp]
    apply ih (by rwa [List.length_set])
    by_cases hq : q = p
    · right
      rw [hq, List.getElem?_set_self hlt]
    · rw [List.getElem?_set_ne hq]
      exact h.imp_left fun hmem => (List.mem_cons.mp hmem).resolve_left (Ne.symm hq)

theorem firstRing_eq_stamp (n size nRanks : ℕ) : firstRing n size nRanks =
    stamp ((List.range n).flatMap fun m => m * size ::
      (List.range' 1 (size - 1)).map fun i => m * size + i) (List.replicate nRanks 0) := by
  unfold firstRing stamp
  rw [List.foldl_flatMap]
  congr
  funext ring m
  rw [List.foldl_cons, List.foldl_map]

theorem firstRing_eq (n size : ℕ) : firstRing n size (n * size) = cells n size (· * size + ·) := by
  rw [firstRing_eq_stamp]
  apply eq_cells
  · rw [length_stamp, List.length_replicate]
  · intro m hm i hi
    apply getElem?_stamp
    · rw [List.length_replicate]
      exact cell_lt hm hi
    · left
      rw [List.mem_flatMap]
      refine ⟨m, List.mem_range.mpr hm, ?_⟩
      cases i with
      | zero => exact List.mem_cons_self
      | succ i =>
        apply List.mem_cons_of_mem
        exact List.mem_map_of_mem (List.mem_range'_1.mpr ⟨by omega, by omega⟩)

theorem balanced_cells {n size lr : ℕ} {f : ℕ → ℕ → ℕ} (hpos : 1 ≤ lr) (hlr : lr ≤ size) :
    balanced n size lr (cells n size f) =
      cells n size fun m i => f (if i = size - lr then (m + 1) % n else m) i := by
  unfold balanced
  rw [swaps_cells (by omega) (Nat.le_refl _)]
  apply cells_congr
  intro b hb i _
  rw [shifted_last hb]

theorem flatRing_eq {n size c : ℕ} (hc : c < size) : flatRing n size (n * size) c =
    cells n size fun m i => (m + if size ≤ i + c then 1 else 0) % n * size + i := by
  induction c with
  | zero =>
    rw [flatRing, firstRing_eq]
    apply cells_congr
    intro m hm i hi
    rw [if_neg (by omega), Nat.add_zero, Nat.mod_eq_of_lt hm]
  | succ c ih =>
    rw [flatRing, ih (by omega), balanced_cells (by omega) hc.le]
    apply cells_congr
    intro m hm i hi
    by_cases hcol : i = size - (c + 1)
    · rw [if_pos hcol, if_neg (by omega), if_pos (by omega), Nat.add_zero, Nat.mod_mod]
    · rw [if_neg hcol]
      have hiff : size ≤ i + c ↔ size ≤ i + (c + 1) := by omega
      simp only [hiff]

example : flatRing 2 8 16 7 = [0, 9, 10, 11, 12, 13, 14, 15, 8, 1, 2, 3, 4, 5, 6, 7] := by decide

end TorchComms.Algos.Topo
