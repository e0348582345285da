import TorchComms.Algos.DeviceBcast
import TorchComms.Foundation.RowLoopsExact
import Mathlib.Data.List.GetD

/-! # Which broadcasts are complete

A pass whose threads visit the rows of a range delivers its bytes when the count that the loops see
is the one that was asked for and no index wraps.
-/
namespace TorchComms.Algos.DeviceBcast
open Foundation
open LocalReduce (u32 roundDown)
open DeviceCopies (Job u64)

variable {A : CtranAlgoDevBcastArg} {G : Grid} {P : Pass} {p : Rows} {nbytes localRank : ℕ}
  {algo : BcastAlgo}

/-! ## A pass over rows -/

/-- The threads of the pass visit these rows. -/
structure Pass.Visits (P : Pass) (G : Grid) (p : Rows) : Prop where
  loops : ∀ g < G.nGroups, ∀ t < G.blockDim, P.loops g t = p.thread g t
  groups : p.groups = G.nGroups
  threads : p.threads = G.blockDim
  size_pos : 0 < P.size
  row_lt : p.threads * p.unroll < p.m
  row_pos : 0 < p.row

namespace Pass.Visits

variable (h : P.Visits G p)
include h

theorem runs_iff (v : LoopVisit) : v.Runs P.loops G.nGroups G.blockDim ↔ p.Runs v := by
  rw [Rows.Runs, h.groups, h.threads]
  constructor
  · rintro ⟨hg, ht, hruns⟩
    exact ⟨hg, ht, h.loops _ hg _ ht ▸ hruns⟩
  · rintro ⟨hg, ht, hruns⟩
    exact ⟨hg, ht, (h.loops _ hg _ ht).symm ▸ hruns⟩

theorem cell_eq {v : LoopVisit} (hv : p.Runs v) : v.cell P.loops = p.cell v := by
  have hv := (h.runs_iff v).mpr hv
  change (P.loops v.group v.thread).cell v.slot = (p.thread v.group v.thread).cell v.slot
  rw [h.loops _ hv.1 _ hv.2.1]

theorem once_iff : P.Once G ↔ ∀ v v', p.Runs v → p.Runs v' → p.cell v = p.cell v' → v = v' := by
  constructor
  · intro honce v v' hv hv' hcell
    apply honce v v' ((h.runs_iff v).mpr hv) ((h.runs_iff v').mpr hv')
    rw [h.cell_eq hv, h.cell_eq hv', hcell]
  · intro honce v v' hv hv' hcell
    have hv := (h.runs_iff v).mp hv
    have hv' := (h.runs_iff v').mp hv'
    rw [h.cell_eq hv, h.cell_eq hv'] at hcell
    exact honce v v' hv hv' hcell

theorem fills_iff (hdvd : P.size ∣ nbytes) : P.Fills G nbytes ↔ p.Fills (nbytes / P.size) := by
  have hinside : ∀ x, (x + 1) * P.size ≤ nbytes ↔ x < nbytes / P.size := by
    intro x
    rw [← Nat.le_div_iff_mul_le h.size_pos, Nat.succ_le_iff]
  constructor
  · intro hfills
    constructor
    · exact h.row_pos
    · intro g hg t ht
      rw [h.groups] at hg
      rw [h.threads] at ht
      rw [← h.loops g hg t ht]
      exact hfills.ends g hg t ht
    · intro x hx
      have hb : x * P.size < nbytes := by
        rwa [← Nat.lt_div_iff_mul_lt_of_dvd h.size_pos.ne' hdvd]
      rcases hfills.covers _ hb with ⟨v, hv, hcell⟩
      have hv := (h.runs_iff v).mp hv
      rw [h.cell_eq hv, Nat.mul_div_cancel _ h.size_pos] at hcell
      exact ⟨v, hv, hcell⟩
    · intro v hv
      rw [← h.cell_eq hv, ← hinside]
      exact hfills.inside v ((h.runs_iff v).mpr hv)
  · intro hfills
    constructor
    · intro g hg t ht
      rw [h.loops g hg t ht]
      exact hfills.ends g (h.groups ▸ hg) t (h.threads ▸ ht)
    · intro b hb
      have hx : b / P.size < nbytes / P.size := Nat.div_lt_div_of_lt_of_dvd hdvd hb
      rcases hfills.covers _ hx with ⟨v, hv, hcell⟩
      exact ⟨v, (h.runs_iff v).mpr hv, (h.cell_eq hv).trans hcell⟩
    · intro v hv
      have hv := (h.runs_iff v).mp hv
      rw [hinside, h.cell_eq hv]
      exact hfills.inside v hv

theorem fills_once_iff (hdvd : P.size ∣ nbytes)
    (hcount : p.Fills (nbytes / P.size) → p.count = nbytes / P.size) :
    P.Fills G nbytes ∧ P.Once G ↔ p.count = nbytes / P.size ∧ p.Fits := by
  rw [h.fills_iff hdvd, h.once_iff, ← Rows.exact_iff, Rows.exact_iff_fills]
  constructor
  · rintro ⟨hfills, honce⟩
    have heq := hcount hfills
    rw [← heq] at hfills
    exact ⟨heq, hfills, honce⟩
  · rintro ⟨heq, hfills, honce⟩
    rw [heq] at hfills
    exact ⟨hfills, honce⟩

end Pass.Visits

/-! ## The count as an `int` -/

theorem toInt_eq (x : ℕ) :
    toInt x = if x % 2 ^ 32 < 2 ^ 31 then ((x % 2 ^ 32 : ℕ) : ℤ)
      else ((x % 2 ^ 32 : ℕ) : ℤ) - 2 ^ 32 := by
  have hbmod : toInt x = if (x : ℤ) % 2 ^ 32 < (2 ^ 32 + 1) / 2 then (x : ℤ) % 2 ^ 32
      else (x : ℤ) % 2 ^ 32 - 2 ^ 32 := by
    unfold toInt
    rw [Int.bmod_def]
    push_cast
    rfl
  rw [hbmod]
  by_cases h : x % 2 ^ 32 < 2 ^ 31
  · have hint : (x : ℤ) % 2 ^ 32 < (2 ^ 32 + 1) / 2 := by omega
    rw [if_pos h, if_pos hint]
    omega
  · have hint : ¬ (x : ℤ) % 2 ^ 32 < (2 ^ 32 + 1) / 2 := by omega
    rw [if_neg h, if_neg hint]
    omega

theorem asUnsigned_toInt (x : ℕ) : asUnsigned (toInt x) = x % 2 ^ 32 := by
  rw [asUnsigned, toInt_eq]
  split
  · omega
  · omega

theorem asUnsigned_tdiv (x k : ℕ) :
    asUnsigned ((toInt x).tdiv k) = if x % 2 ^ 32 < 2 ^ 31 then x % 2 ^ 32 / k
      else (2 ^ 32 - (2 ^ 32 - x % 2 ^ 32) / k) % 2 ^ 32 := by
  have hmod := Nat.mod_lt x (Nat.two_pow_pos 32)
  rw [asUnsigned, toInt_eq]
  split
  · rw [Int.tdiv_eq_ediv_of_nonneg (Int.natCast_nonneg _), ← Int.natCast_ediv]
    have hle := Nat.div_le_self (x % 2 ^ 32) k
    generalize x % 2 ^ 32 / k = q at hle
    omega
  · have hneg : ((x % 2 ^ 32 : ℕ) : ℤ) - 2 ^ 32 = -((2 ^ 32 - x % 2 ^ 32 : ℕ) : ℤ) := by omega
    rw [hneg, Int.neg_tdiv, Int.tdiv_eq_ediv_of_nonneg (Int.natCast_nonneg _), ← Int.natCast_ediv]
    have hle := Nat.div_le_self (2 ^ 32 - x % 2 ^ 32) k
    generalize (2 ^ 32 - x % 2 ^ 32) / k = q at hle
    omega

theorem toSize_toInt_mul (x s : ℕ) : toSize (toInt x) * s % 2 ^ 64 % 16 = x * s % 16 := by
  have hmod : toSize (toInt x) % 16 = x % 16 := by
    rw [toSize, toInt_eq]
    split
    · omega
    · omega
  rw [Nat.mod_mod_of_dvd _ (by decide), Nat.mul_mod, hmod, ← Nat.mul_mod]

theorem sizeofT_cases {s : ℕ} (h : s ∣ 16) : s = 1 ∨ s = 2 ∨ s = 4 ∨ s = 8 ∨ s = 16 := by
  have hall : ∀ s < 17, s ∣ 16 → s = 1 ∨ s = 2 ∨ s = 4 ∨ s = 8 ∨ s = 16 := by decide
  exact hall s (Nat.lt_succ_of_le (Nat.le_of_dvd (by decide) h)) h

/-! ## The default algorithm -/

theorem asUnsigned_lt (x : ℤ) : asUnsigned x < 2 ^ 32 := by
  unfold asUnsigned
  omega

theorem unroll_gt {size n : ℕ} (hsize : size ∣ 16) (hn : 1 < n) : 1 < 16 / size * n := by
  have hpos := Nat.div_pos (Nat.le_of_dvd (by decide) hsize)
    (Nat.pos_of_dvd_of_pos hsize (by decide))
  exact hn.trans_le (Nat.le_mul_of_pos_left _ hpos)

def bcastRows (G : Grid) (size : ℕ) (hsize : size ∣ 16) (count : ℤ) : Rows where
  m := 2 ^ 32
  M := 2 ^ 32
  threads := G.blockDim
  unroll := 16 / size * UnrollSize
  groups := G.nGroups
  count := asUnsigned count
  tail := .all
  threads_pos := G.blockDim_pos
  threads_lt := G.blockDim_le.trans_lt (by decide)
  unroll_gt := unroll_gt hsize (by decide)
  groups_pos := G.nGroups_pos
  count_lt := asUnsigned_lt count
  words := le_refl _

/-- A block has at most 1024 threads, so a row has at most `2 ^ 17` cells. -/
theorem row_le (size : ℕ) {n : ℕ} (G : Grid) (hn : n ≤ 8) : G.blockDim * (16 / size * n) ≤ 2 ^ 17 :=
  calc G.blockDim * (16 / size * n) ≤ 1024 * (16 * 8) :=
        Nat.mul_le_mul G.blockDim_le (Nat.mul_le_mul (Nat.div_le_self 16 size) hn)
    _ = 2 ^ 17 := by decide

namespace CtranAlgoDevBcastArg

theorem sizeofT_pos (A : CtranAlgoDevBcastArg) : 0 < A.sizeofT :=
  Nat.pos_of_dvd_of_pos A.sizeofT_dvd (by decide)

/-- The size of what a thread of `bcast` loads at once. -/
def unit (A : CtranAlgoDevBcastArg) : ℕ := if A.canCopy16Byte then 16 else A.sizeofT

theorem unit_dvd (A : CtranAlgoDevBcastArg) : A.unit ∣ 16 := by
  unfold unit
  split
  · exact Nat.dvd_refl 16
  · exact A.sizeofT_dvd

def bcastCount (A : CtranAlgoDevBcastArg) : ℤ :=
  if A.canCopy16Byte then (toInt A.count).tdiv (16 / A.sizeofT : ℕ) else toInt A.count

def rows (A : CtranAlgoDevBcastArg) (G : Grid) : Rows :=
  bcastRows G A.unit A.unit_dvd A.bcastCount

theorem bcast_eq (A : CtranAlgoDevBcastArg) (G : Grid) (dst : ℕ) : A.bcast G dst =
    ⟨dst, A.unit, bcastUnroll A.unit A.bcastCount G.blockDim G.nGroups⟩ := by
  unfold bcast unit bcastCount
  split
  · rfl
  · rfl

theorem rows_row_lt (A : CtranAlgoDevBcastArg) (G : Grid) :
    (A.rows G).threads * (A.rows G).unroll < (A.rows G).m :=
  (row_le A.unit G (le_refl 8)).trans_lt (show 2 ^ 17 < 2 ^ 32 by decide)

theorem rows_row_pos (A : CtranAlgoDevBcastArg) (G : Grid) : 0 < (A.rows G).row := by
  rw [Rows.row, Nat.mod_eq_of_lt (A.rows_row_lt G)]
  exact Nat.mul_pos (A.rows G).threads_pos (Nat.zero_lt_of_lt (A.rows G).unroll_gt)

theorem bcast_visits (A : CtranAlgoDevBcastArg) (G : Grid) (dst : ℕ) :
    (A.bcast G dst).Visits G (A.rows G) := by
  rw [bcast_eq]
  constructor
  · intro g hg t ht
    rfl
  · rfl
  · rfl
  · exact Nat.pos_of_dvd_of_pos A.unit_dvd (by decide)
  · exact A.rows_row_lt G
  · exact A.rows_row_pos G

theorem canCopy16Byte_mod (h : A.canCopy16Byte = true) : A.count * A.sizeofT % 16 = 0 := by
  rw [canCopy16Byte, toSize_toInt_mul, Bool.and_eq_true, Bool.and_eq_true] at h
  exact of_decide_eq_true h.1.2

theorem unit_dvd_nbytes (A : CtranAlgoDevBcastArg) : A.unit ∣ A.nbytes := by
  unfold unit
  split
  · next h => exact Nat.dvd_of_mod_eq_zero (canCopy16Byte_mod h)
  · exact Nat.dvd_mul_left _ _

/-- Which counts the loops of `bcast` see as they are. -/
def CountFits (A : CtranAlgoDevBcastArg) : Prop :=
  if A.canCopy16Byte then
    A.count < 2 ^ 31 ∨ A.count / 2 ^ 32 = 16 / A.sizeofT - 1 ∧ 2 ^ 31 ≤ A.count % 2 ^ 32
  else A.count < 2 ^ 32

theorem rows_count (A : CtranAlgoDevBcastArg) (G : Grid) :
    ((A.rows G).count = A.nbytes / A.unit ↔ A.CountFits) ∧
      ((A.rows G).count ≤ A.nbytes / A.unit → A.nbytes / A.unit ≤ (A.rows G).count + 2 ^ 17 →
        (A.rows G).count = A.nbytes / A.unit) := by
  change (asUnsigned A.bcastCount = _ ↔ _) ∧ (asUnsigned A.bcastCount ≤ _ →
    _ ≤ asUnsigned A.bcastCount + _ → asUnsigned A.bcastCount = _)
  unfold bcastCount unit CountFits nbytes
  by_cases h : A.canCopy16Byte = true
  · have hmod := canCopy16Byte_mod h
    simp only [h, if_true]
    rw [asUnsigned_tdiv]
    generalize A.count = count at hmod ⊢
    rcases sizeofT_cases A.sizeofT_dvd with hs | hs | hs | hs | hs
    all_goals
      rw [hs] at hmod ⊢
      simp only [Nat.reduceDiv, Nat.reduceSub]
      constructor
      · split <;> omega
      · split <;> omega
  · simp only [h, Bool.false_eq_true, if_false]
    rw [asUnsigned_toInt, Nat.mul_div_cancel _ A.sizeofT_pos]
    omega

theorem bcast_size (A : CtranAlgoDevBcastArg) (G : Grid) (dst : ℕ) :
    (A.bcast G dst).size = A.unit := by
  rw [bcast_eq]

theorem rows_fills_count (h : (A.rows G).Fills (A.nbytes / A.unit)) :
    (A.rows G).count = A.nbytes / A.unit := by
  have hrow : (A.rows G).row ≤ 2 ^ 17 := (Nat.mod_le _ _).trans (row_le _ G (le_refl 8))
  apply (A.rows_count G).2 (h.count_le rfl (A.rows_row_lt G))
  exact (h.le_add_row (A.rows_row_lt G)).trans (Nat.add_le_add_left hrow _)

variable {dst : ℕ}

theorem bcast_fills_count (h : (A.bcast G dst).Fills G A.nbytes) : A.CountFits := by
  rw [(A.bcast_visits G dst).fills_iff (A.bcast_size G dst ▸ A.unit_dvd_nbytes), bcast_size] at h
  exact (A.rows_count G).1.mp (rows_fills_count h)

theorem bcast_fills_once_iff (dst : ℕ) :
    (A.bcast G dst).Fills G A.nbytes ∧ (A.bcast G dst).Once G ↔
      A.CountFits ∧ (A.rows G).Fits := by
  have hsize := A.bcast_size G dst
  rw [(A.bcast_visits G dst).fills_once_iff (hsize ▸ A.unit_dvd_nbytes)
    (hsize.symm ▸ rows_fills_count), hsize, (A.rows_count G).1]

/-! ## One destination after another -/

/-- The rows of `copy`. -/
def copyRows (G : Grid) (K : Job) : Rows where
  m := 2 ^ 32
  M := 2 ^ 64
  threads := G.blockDim
  unroll := 16 / K.sizeofT * 4
  groups := G.nGroups
  count := K.count
  tail := .one
  threads_pos := G.blockDim_pos
  threads_lt := G.blockDim_le.trans_lt (by decide)
  unroll_gt := unroll_gt K.sizeofT_dvd (by decide)
  groups_pos := G.nGroups_pos
  count_lt := K.count_lt
  words := (by decide : 4294967296 ≤ 2 ^ 64)

/-- The way that `multiPutBcast` takes to a destination. -/
def path (A : CtranAlgoDevBcastArg) (dst : ℕ) : Job :=
  if A.job.canCopy16 A.src dst then A.job.vectors else A.job

def put (A : CtranAlgoDevBcastArg) (G : Grid) (dst : ℕ) : Pass :=
  ⟨dst, (A.path dst).sizeofT, fun groupIdx =>
    DeviceCopies.copy (A.path dst).sizeofT G.blockDim (A.path dst).count groupIdx G.nGroups⟩

theorem putTo_eq (A : CtranAlgoDevBcastArg) (G : Grid) (peer : ℕ) : A.putTo G peer =
    if A.src ≠ A.dsts peer ∧ 0 < A.count then some (A.put G (A.dsts peer)) else none := rfl

theorem copyRows_row_lt (G : Grid) (K : Job) :
    (copyRows G K).threads * (copyRows G K).unroll < (copyRows G K).m :=
  (row_le K.sizeofT G (show 4 ≤ 8 by decide)).trans_lt (show 2 ^ 17 < 2 ^ 32 by decide)

theorem put_visits (A : CtranAlgoDevBcastArg) (G : Grid) (dst : ℕ) :
    (A.put G dst).Visits G (copyRows G (A.path dst)) := by
  constructor
  · intro g hg t ht
    exact if_neg (Nat.not_le_of_lt hg)
  · rfl
  · rfl
  · exact Nat.pos_of_dvd_of_pos (A.path dst).sizeofT_dvd (by decide)
  · exact copyRows_row_lt G _
  · rw [Rows.row, Nat.mod_eq_of_lt (copyRows_row_lt G _)]
    exact Nat.mul_pos (copyRows G _).threads_pos (Nat.zero_lt_of_lt (copyRows G _).unroll_gt)

/-- The number of bytes that `multiPutBcast` computes is right where it divides that by 16. -/
def BytesFit (A : CtranAlgoDevBcastArg) (dst : ℕ) : Prop :=
  A.job.canCopy16 A.src dst = true → A.nbytes < 2 ^ 64

theorem canCopy16_mod (h : A.job.canCopy16 A.src dst = true) : A.nbytes % 16 = 0 := by
  rw [Job.canCopy16, Bool.and_eq_true, decide_eq_true_eq] at h
  rw [← h.2]
  exact (Nat.mod_mod_of_dvd _ (by decide)).symm

theorem path_dvd (A : CtranAlgoDevBcastArg) (dst : ℕ) : (A.path dst).sizeofT ∣ A.nbytes := by
  unfold path
  split
  · next h => exact Nat.dvd_of_mod_eq_zero (canCopy16_mod h)
  · exact Nat.dvd_mul_left _ _

theorem path_count (A : CtranAlgoDevBcastArg) (dst : ℕ) :
    ((A.path dst).count = A.nbytes / (A.path dst).sizeofT ↔ A.BytesFit dst) ∧
      (A.nbytes / (A.path dst).sizeofT ≤ (A.path dst).count + 2 ^ 17 →
        (A.path dst).count = A.nbytes / (A.path dst).sizeofT) := by
  unfold path BytesFit
  by_cases h : A.job.canCopy16 A.src dst = true
  · have hmod := canCopy16_mod h
    simp only [h, if_true, true_implies]
    change (u64 A.nbytes / 16 = A.nbytes / 16 ↔ _) ∧ (A.nbytes / 16 ≤ u64 A.nbytes / 16 + _ →
      u64 A.nbytes / 16 = A.nbytes / 16)
    unfold u64
    constructor
    · omega
    · omega
  · simp only [h, Bool.false_eq_true, if_false]
    have heq : A.job.count = A.nbytes / A.job.sizeofT := (Nat.mul_div_cancel _ A.sizeofT_pos).symm
    exact ⟨iff_of_true heq nofun, fun _ => heq⟩

theorem path_fills_count
    (h : (copyRows G (A.path dst)).Fills (A.nbytes / (A.path dst).sizeofT)) :
    (copyRows G (A.path dst)).count = A.nbytes / (A.path dst).sizeofT := by
  have hrow : (copyRows G (A.path dst)).row ≤ 2 ^ 17 :=
    (Nat.mod_le _ _).trans (row_le _ G (by decide))
  apply (A.path_count dst).2
  exact (h.le_add_row (copyRows_row_lt G _)).trans (Nat.add_le_add_left hrow _)

theorem put_fills_count (h : (A.put G dst).Fills G A.nbytes) : A.BytesFit dst := by
  rw [(A.put_visits G dst).fills_iff (A.path_dvd dst)] at h
  exact (A.path_count dst).1.mp (path_fills_count h)

theorem put_fills_once_iff (dst : ℕ) :
    (A.put G dst).Fills G A.nbytes ∧ (A.put G dst).Once G ↔
      A.BytesFit dst ∧ (copyRows G (A.path dst)).Fits := by
  rw [(A.put_visits G dst).fills_once_iff (A.path_dvd dst) path_fills_count,
    ← (A.path_count dst).1]
  rfl

/-! ## All passes -/

theorem exists_turn {n v : ℕ} (hv : v < n) (localRank : ℕ) : ∃ i < n, (localRank + i) % n = v := by
  have hpos : 0 < n := Nat.zero_lt_of_lt hv
  have hmod := Nat.mod_lt localRank hpos
  have hdiv := Nat.mod_add_div localRank n
  refine ⟨(v + (n - localRank % n)) % n, Nat.mod_lt _ hpos, ?_⟩
  have hsum : localRank + (v + (n - localRank % n)) = v + n * (localRank / n + 1) := by
    rw [Nat.mul_add, Nat.mul_one]
    omega
  rw [Nat.add_mod_mod, hsum, Nat.add_mul_mod_self_left, Nat.mod_eq_of_lt hv]

theorem mem_default : P ∈ A.ctranKernBcast G localRank .kDefaultBcast ↔
    ∃ v < A.nvectors, A.bcast G (A.dsts v) = P := by
  simp only [ctranKernBcast, List.mem_map, List.mem_range]

theorem mem_multiPut : P ∈ A.ctranKernBcast G localRank .kMultiPutBcast ↔
    ∃ v < A.nvectors, (A.src ≠ A.dsts v ∧ 0 < A.count) ∧ A.put G (A.dsts v) = P := by
  simp only [ctranKernBcast, multiPutBcast, putTo_eq, List.mem_filterMap, List.mem_range,
    Option.ite_none_right_eq_some, Option.some.injEq]
  constructor
  · rintro ⟨i, -, hput⟩
    exact ⟨_, Nat.mod_lt _ A.nvectors_pos, hput⟩
  · rintro ⟨v, hv, hput⟩
    rcases exists_turn hv localRank with ⟨i, hi, rfl⟩
    exact ⟨i, hi, hput⟩

theorem exists_dst (h : P ∈ A.ctranKernBcast G localRank algo) :
    ∃ v < A.nvectors, P.dst = A.dsts v := by
  cases algo with
  | kDefaultBcast =>
    rcases mem_default.mp h with ⟨v, hv, rfl⟩
    refine ⟨v, hv, ?_⟩
    rw [bcast_eq]
  | kMultiPutBcast =>
    rcases mem_multiPut.mp h with ⟨v, hv, -, rfl⟩
    exact ⟨v, hv, rfl⟩

theorem exists_pass (G : Grid) (localRank : ℕ) (algo : BcastAlgo) {v : ℕ} (hv : v < A.nvectors) :
    (∃ P ∈ A.ctranKernBcast G localRank algo, P.dst = A.dsts v) ∨ A.dsts v = A.src ∨
      A.count = 0 := by
  cases algo with
  | kDefaultBcast =>
    refine .inl ⟨_, mem_default.mpr ⟨v, hv, rfl⟩, ?_⟩
    rw [bcast_eq]
  | kMultiPutBcast =>
    by_cases hput : A.src ≠ A.dsts v ∧ 0 < A.count
    · exact .inl ⟨_, mem_multiPut.mpr ⟨v, hv, hput, rfl⟩, rfl⟩
    · rw [not_and_or, not_not, Nat.not_lt, Nat.le_zero, eq_comm] at hput
      exact .inr hput

theorem pass_size_pos (h : P ∈ A.ctranKernBcast G localRank algo) : 0 < P.size := by
  cases algo with
  | kDefaultBcast =>
    rcases mem_default.mp h with ⟨v, hv, rfl⟩
    exact (A.bcast_visits G _).size_pos
  | kMultiPutBcast =>
    rcases mem_multiPut.mp h with ⟨v, hv, -, rfl⟩
    exact (A.put_visits G _).size_pos

/-! ## The memory -/

variable {ps : List Pass} {c c' : ByteCopy} {v v' b b' : ℕ}

theorem dst_inj (hv : v < A.nvectors) (hv' : v' < A.nvectors) (hb : b < A.nbytes)
    (hb' : b' < A.nbytes) (h : A.dsts v + b = A.dsts v' + b') : v = v' := by
  by_contra hne
  rcases A.apart v hv v' hv' hne with hzero | hzero | hle | hle
  · exact Nat.not_lt_zero b (hzero ▸ hb)
  · exact Nat.not_lt_zero b (hzero ▸ hb)
  · change A.dsts v + A.nbytes ≤ A.dsts v' at hle
    omega
  · change A.dsts v' + A.nbytes ≤ A.dsts v at hle
    omega

theorem dst_source (hv : v < A.nvectors) (hb : b < A.nbytes) (hb' : b' < A.nbytes)
    (h : A.dsts v + b = A.src + b') : A.dsts v = A.src := by
  rcases A.source v hv with heq | hzero | hzero | hle | hle
  · exact heq
  · exact absurd (hzero ▸ hb) (Nat.not_lt_zero b)
  · exact absurd (hzero ▸ hb) (Nat.not_lt_zero b)
  · change A.dsts v + A.nbytes ≤ A.src at hle
    omega
  · change A.src + A.nbytes ≤ A.dsts v at hle
    omega

theorem of_mem (h : c.Runs ps G) : c.of ps ∈ ps := by
  rw [ByteCopy.of, List.getD_eq_getElem _ _ h.1]
  exact List.getElem_mem h.1

theorem offset_lt (hfills : ∀ P ∈ ps, P.Fills G A.nbytes) (h : c.Runs ps G) :
    c.offset ps < A.nbytes := by
  have hin := (hfills _ (of_mem h)).inside _ h.2.1
  rw [Nat.add_mul, Nat.one_mul] at hin
  exact (Nat.add_lt_add_left h.2.2 _).trans_le hin

theorem exists_target (hdst : ∀ P ∈ ps, ∃ v < A.nvectors, P.dst = A.dsts v) (h : c.Runs ps G) :
    ∃ v < A.nvectors, (copies ps A.src).target c = A.dsts v + c.offset ps := by
  rcases hdst _ (of_mem h) with ⟨v, hv, hdst⟩
  exact ⟨v, hv, congrArg (· + c.offset ps) hdst⟩

theorem harmless (hdst : ∀ P ∈ ps, ∃ v < A.nvectors, P.dst = A.dsts v)
    (hfills : ∀ P ∈ ps, P.Fills G A.nbytes) : (copies ps A.src).Harmless (ByteCopy.Runs ps G) := by
  constructor
  · intro c c' hc hc' h
    rcases exists_target hdst hc with ⟨v, hv, htarget⟩
    rw [htarget] at h ⊢
    rw [dst_source hv (offset_lt hfills hc) (offset_lt hfills hc') h]
    rfl
  · intro c c' hc hc' h
    rcases exists_target hdst hc with ⟨v, hv, htarget⟩
    rcases exists_target hdst hc' with ⟨v', hv', htarget'⟩
    rw [htarget, htarget'] at h
    have heq := dst_inj hv hv' (offset_lt hfills hc) (offset_lt hfills hc') h
    rw [heq] at h
    exact congrArg (A.src + ·) (Nat.add_left_cancel h)

theorem exists_copy (hfills : P.Fills G A.nbytes) (hmem : P ∈ ps) (hsize : 0 < P.size)
    (hb : b < A.nbytes) : ∃ c : ByteCopy, c.Runs ps G ∧ c.of ps = P ∧ c.offset ps = b := by
  rcases List.getElem_of_mem hmem with ⟨n, hn, rfl⟩
  rcases hfills.covers b hb with ⟨visit, hvisit, hcell⟩
  have hof : (ByteCopy.mk n visit (b % ps[n].size)).of ps = ps[n] := List.getD_eq_getElem _ _ hn
  refine ⟨⟨n, visit, b % ps[n].size⟩, ⟨hn, ?_, ?_⟩, hof, ?_⟩
  · rw [hof]
    exact hvisit
  · rw [hof]
    exact Nat.mod_lt _ hsize
  · rw [ByteCopy.offset, hof, hcell]
    exact Nat.div_add_mod' _ _

theorem outcome_of_fills (hdst : ∀ P ∈ ps, ∃ v < A.nvectors, P.dst = A.dsts v)
    (hreach : ∀ v < A.nvectors, (∃ P ∈ ps, P.dst = A.dsts v) ∨ A.dsts v = A.src ∨ A.count = 0)
    (hsize : ∀ P ∈ ps, 0 < P.size) (hfills : ∀ P ∈ ps, P.Fills G A.nbytes) : A.Outcome G ps := by
  intro α s trace hord
  have hharmless := harmless hdst hfills
  constructor
  · intro v hv b hb
    by_cases hpass : ∃ P ∈ ps, P.dst = A.dsts v
    · rcases hpass with ⟨P, hP, hPdst⟩
      rcases exists_copy (hfills P hP) hP (hsize P hP) hb with ⟨c, hc, hof, hoffset⟩
      have htarget : (copies ps A.src).target c = A.dsts v + b := by
        change (c.of ps).dst + c.offset ps = _
        rw [hof, hoffset, hPdst]
      have hfinal := Copies.final_target (s := s) hharmless hord hc
      rw [htarget] at hfinal
      rw [hfinal]
      exact congrArg (fun x => s.mem (A.src + x)) hoffset
    · have hself : A.dsts v = A.src := by
        rcases (hreach v hv).resolve_left hpass with hself | hzero
        · exact hself
        · rw [nbytes, hzero, Nat.zero_mul] at hb
          exact absurd hb (Nat.not_lt_zero b)
      rw [Copies.final_of_not_target hharmless hord, hself]
      intro c hc htarget
      rcases hdst _ (of_mem hc) with ⟨v', hv', hdst'⟩
      have hsum : A.dsts v' + c.offset ps = A.dsts v + b :=
        (congrArg (· + c.offset ps) hdst').symm.trans htarget
      rw [dst_inj hv' hv (offset_lt hfills hc) hb hsum] at hdst'
      exact hpass ⟨_, of_mem hc, hdst'⟩
  · intro a hno
    apply Copies.final_of_not_target hharmless hord
    intro c hc htarget
    rcases exists_target hdst hc with ⟨v, hv, heq⟩
    exact hno v hv _ (offset_lt hfills hc) (htarget.symm.trans heq)

/-! ## Both algorithms -/

/-- The loops see the count that was asked for. -/
def SizesFit (A : CtranAlgoDevBcastArg) : BcastAlgo → Prop
  | .kDefaultBcast => A.CountFits
  | .kMultiPutBcast => ∀ v < A.nvectors, A.src ≠ A.dsts v ∧ 0 < A.count → A.BytesFit (A.dsts v)

/-- And no index wraps. -/
def RowsFit (A : CtranAlgoDevBcastArg) (G : Grid) : BcastAlgo → Prop
  | .kDefaultBcast => (A.rows G).Fits
  | .kMultiPutBcast => ∀ v < A.nvectors, A.src ≠ A.dsts v ∧ 0 < A.count →
      (copyRows G (A.path (A.dsts v))).Fits

theorem fills_once_iff (A : CtranAlgoDevBcastArg) (G : Grid) (localRank : ℕ) (algo : BcastAlgo) :
    (∀ P ∈ A.ctranKernBcast G localRank algo, P.Fills G A.nbytes ∧ P.Once G) ↔
      A.SizesFit algo ∧ A.RowsFit G algo := by
  cases algo with
  | kDefaultBcast =>
    constructor
    · intro h
      exact (bcast_fills_once_iff (A.dsts 0)).mp (h _ (mem_default.mpr ⟨0, A.nvectors_pos, rfl⟩))
    · intro h P hP
      rcases mem_default.mp hP with ⟨v, -, rfl⟩
      exact (bcast_fills_once_iff (A.dsts v)).mpr h
  | kMultiPutBcast =>
    constructor
    · intro h
      have hall : ∀ v < A.nvectors, A.src ≠ A.dsts v ∧ 0 < A.count → A.BytesFit (A.dsts v) ∧
          (copyRows G (A.path (A.dsts v))).Fits := fun v hv hput =>
        (put_fills_once_iff (A.dsts v)).mp (h _ (mem_multiPut.mpr ⟨v, hv, hput, rfl⟩))
      exact ⟨fun v hv hput => (hall v hv hput).1, fun v hv hput => (hall v hv hput).2⟩
    · rintro ⟨hsizes, hrows⟩ P hP
      rcases mem_multiPut.mp hP with ⟨v, hv, hput, rfl⟩
      exact (put_fills_once_iff (A.dsts v)).mpr ⟨hsizes v hv hput, hrows v hv hput⟩

theorem fills_sizes (h : ∀ P ∈ A.ctranKernBcast G localRank algo, P.Fills G A.nbytes) :
    A.SizesFit algo := by
  cases algo with
  | kDefaultBcast =>
    exact bcast_fills_count (h _ (mem_default.mpr ⟨0, A.nvectors_pos, rfl⟩))
  | kMultiPutBcast =>
    intro v hv hput
    exact put_fills_count (h _ (mem_multiPut.mpr ⟨v, hv, hput, rfl⟩))

/-- A broadcast delivers, with one store to each place, when the loops see its count and no index
wraps. It does not deliver, even with repeated stores, when they do not see its count. -/
theorem ctranKernBcast_delivers_iff (A : CtranAlgoDevBcastArg) (G : Grid) (localRank : ℕ)
    (algo : BcastAlgo) :
    (A.Delivers G localRank algo ∧ A.Once G localRank algo ↔
      A.SizesFit algo ∧ A.RowsFit G algo) ∧
      (A.Delivers G localRank algo → A.SizesFit algo) := by
  refine ⟨?_, fun h => fills_sizes h.fills⟩
  rw [← A.fills_once_iff G localRank algo]
  constructor
  · rintro ⟨hdelivers, honce⟩ P hP
    exact ⟨hdelivers.fills P hP, honce P hP⟩
  · intro h
    have hfills := fun P hP => (h P hP).1
    refine ⟨⟨hfills, ?_⟩, fun P hP => (h P hP).2⟩
    exact outcome_of_fills (fun P => exists_dst) (fun v => exists_pass G localRank algo)
      (fun P => pass_size_pos) hfills

/-- A buffer of `2 ^ 32` bytes for one peer. -/
def largeArg : CtranAlgoDevBcastArg where
  src := 0
  dsts := fun _ => 2 ^ 40
  nvectors := 1
  count := 2 ^ 32
  sizeofT := 1
  nvectors_pos := Nat.one_pos
  nvectors_le := by decide
  count_lt := by decide
  sizeofT_dvd := ⟨16, rfl⟩
  apart := fun v hv v' hv' hne => absurd (by omega) hne
  source := fun _ _ => .inr (.inr (.inr (.inr (by decide))))

/-- The default algorithm sends nothing of it. -/
theorem not_delivers_large :
    ¬ largeArg.Delivers ⟨32, 1, by decide, by decide, by decide⟩ 0 .kDefaultBcast := by
  intro h
  have hsizes : largeArg.CountFits := fills_sizes h.fills
  unfold CountFits at hsizes
  split at hsizes
  · exact absurd hsizes (by decide)
  · exact absurd hsizes (by decide)

end CtranAlgoDevBcastArg

end TorchComms.Algos.DeviceBcast
