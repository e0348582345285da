import TorchComms.Foundation.Cutting
import TorchComms.Foundation.MachineWords
import Mathlib.Tactic.Ring

/-! # Rows shared out among groups of threads

A thread has an unrolled loop that visits some cells in each turn and, possibly, a loop over what is
left. Groups of threads take the rows of a range in turn, and each thread a column of the group's
rows. Starts and strides are words below `m` and counters words below `M`.
-/
namespace TorchComms.Foundation

/-- The loops of one thread. `rest` is the start and the stride of the loop over what is left. -/
structure ThreadLoops where
  modulus : ℕ
  count : ℕ
  limit : ℕ
  start : ℕ
  stride : ℕ
  unroll : ℕ
  offset : ℕ → ℕ
  rest : Option (ℕ × ℕ)

inductive LoopSlot
  | main (k j : ℕ)
  | rest (k : ℕ)
  deriving DecidableEq

namespace ThreadLoops

/-- A thread that does nothing. -/
def idle : ThreadLoops := ⟨1, 0, 0, 0, 0, 0, id, none⟩

variable (l : ThreadLoops)

/-- Whether the thread comes to it. -/
def Runs : LoopSlot → Prop
  | .main k j => Executes l.modulus l.limit l.stride l.start k ∧ j < l.unroll
  | .rest k => ∃ r ∈ l.rest, Executes l.modulus l.count r.2 r.1 k

def cell : LoopSlot → ℕ
  | .main k j => (counter l.modulus l.stride l.start k + l.offset j) % l.modulus
  | .rest k =>
    match l.rest with
    | none => 0
    | some r => counter l.modulus r.2 r.1 k

/-- Both loops end. -/
def Ends : Prop :=
  Foundation.Ends l.modulus l.limit l.stride l.start ∧
    ∀ r ∈ l.rest, Foundation.Ends l.modulus l.count r.2 r.1

end ThreadLoops

/-- A cell that a thread of a group visits. -/
structure LoopVisit where
  group : ℕ
  thread : ℕ
  slot : LoopSlot
  deriving DecidableEq

namespace LoopVisit

variable (f : ℕ → ℕ → ThreadLoops) (groups threads : ℕ) (v : LoopVisit)

def Runs : Prop :=
  v.group < groups ∧ v.thread < threads ∧ (f v.group v.thread).Runs v.slot

def cell : ℕ := (f v.group v.thread).cell v.slot

end LoopVisit

/-- All loops end, each cell is visited once, and no other one is. -/
structure VisitsOnce (f : ℕ → ℕ → ThreadLoops) (groups threads count : ℕ) : Prop where
  ends : ∀ g < groups, ∀ t < threads, (f g t).Ends
  once : ∀ x < count, ∃! v : LoopVisit, v.Runs f groups threads ∧ v.cell f = x
  inside : ∀ v : LoopVisit, v.Runs f groups threads → v.cell f < count

theorem VisitsOnce.congr {f f' : ℕ → ℕ → ThreadLoops} {groups threads count : ℕ}
    (h : VisitsOnce f groups threads count)
    (heq : ∀ g < groups, ∀ t < threads, f g t = f' g t) : VisitsOnce f' groups threads count := by
  have hruns : ∀ v : LoopVisit, v.Runs f' groups threads ↔ v.Runs f groups threads := by
    rintro ⟨g, t, slot⟩
    constructor
    · rintro ⟨hg, ht, hslot⟩
      exact ⟨hg, ht, (heq g hg t ht).symm ▸ hslot⟩
    · rintro ⟨hg, ht, hslot⟩
      exact ⟨hg, ht, heq g hg t ht ▸ hslot⟩
  have hcell : ∀ v : LoopVisit, v.Runs f groups threads → v.cell f' = v.cell f := by
    rintro ⟨g, t, slot⟩ ⟨hg, ht, -⟩
    change (f' g t).cell slot = (f g t).cell slot
    rw [heq g hg t ht]
  constructor
  · intro g hg t ht
    rw [← heq g hg t ht]
    exact h.ends g hg t ht
  · intro x hx
    obtain ⟨v, ⟨hv, hvx⟩, huniq⟩ := h.once x hx
    refine ⟨v, ⟨(hruns v).mpr hv, (hcell v hv).trans hvx⟩, ?_⟩
    rintro v' ⟨hv', hv'x⟩
    have hv' := (hruns v').mp hv'
    exact huniq v' ⟨hv', (hcell v' hv').symm.trans hv'x⟩
  · intro v hv
    have hv := (hruns v).mp hv
    rw [hcell v hv]
    exact h.inside v hv

/-- Who visits what is left of the rows: the group whose turn it is, or all. -/
inductive Tail
  | one
  | all
  deriving DecidableEq

structure Rows where
  m : ℕ
  M : ℕ
  threads : ℕ
  unroll : ℕ
  groups : ℕ
  count : ℕ
  tail : Tail
  threads_pos : 0 < threads
  threads_lt : threads < m
  unroll_gt : 1 < unroll
  groups_pos : 0 < groups
  count_lt : count < M
  words : m ≤ M

namespace Rows

variable (p : Rows)

def row : ℕ := p.threads * p.unroll % p.m

def limit : ℕ := p.count / p.row * p.row

/-- How many threads share what is left. -/
def workers : ℕ :=
  match p.tail with
  | .one => p.threads
  | .all => p.groups * p.threads

def restOf (g t : ℕ) : Option (ℕ × ℕ) :=
  match p.tail with
  | .one =>
    if p.count ≠ p.limit ∧ g = p.limit / p.row % p.groups then
      some ((p.limit + t) % p.M, p.threads)
    else none
  | .all => some ((p.limit + p.threads * g + t) % p.M, p.groups * p.threads % p.M)

def thread (g t : ℕ) : ThreadLoops where
  modulus := p.M
  count := p.count
  limit := p.limit
  start := (g * p.row + t) % p.m
  stride := p.groups * p.row % p.m
  unroll := p.unroll
  offset := fun j => j * p.threads % p.m
  rest := p.restOf g t

def Runs (v : LoopVisit) : Prop := v.Runs p.thread p.groups p.threads

def cell (v : LoopVisit) : ℕ := v.cell p.thread

/-- Each cell is visited once, and the division by the length of a row is defined. -/
structure Exact : Prop extends VisitsOnce p.thread p.groups p.threads p.count where
  divides : 0 < p.row

/-- No counter wraps in the unrolled loops. -/
def MainFits : Prop :=
  p.limit = 0 ∨
    p.threads * p.unroll < p.m ∧ p.groups * p.row < p.m ∧
      p.limit + p.groups * p.row + p.threads ≤ p.M + p.row

/-- Nor in the loops over what is left. -/
def TailFits : Prop :=
  match p.tail with
  | .one => p.count = p.limit ∨ p.count + p.threads ≤ p.M
  | .all => p.count = 0 ∨ p.count + p.groups * p.threads ≤ p.M

/-- No index wraps. -/
def Fits : Prop := 0 < p.row ∧ p.MainFits ∧ p.TailFits

variable {p} {g t k j x : ℕ} {v : LoopVisit}

theorem m_pos (p : Rows) : 0 < p.m := p.threads_pos.trans p.threads_lt

theorem limit_le (p : Rows) : p.limit ≤ p.count := Nat.div_mul_le_self _ _

theorem row_dvd (p : Rows) : p.row ∣ p.limit := Nat.dvd_mul_left _ _

theorem row_le (hlimit : 0 < p.limit) : p.row ≤ p.limit := Nat.le_of_dvd hlimit p.row_dvd

/-! ## Over the naturals -/

/-- The loop over what is left is for this thread, with its number among those it is for. -/
def Takes (p : Rows) (g w t : ℕ) : Prop :=
  match p.tail with
  | .one => p.count ≠ p.limit ∧ g = p.limit / p.row % p.groups ∧ w = t
  | .all => w = g * p.threads + t

/-- The cell of a visit when nothing wraps. -/
def Within (p : Rows) (v : LoopVisit) (x : ℕ) : Prop :=
  v.group < p.groups ∧ v.thread < p.threads ∧
    match v.slot with
    | .main k j => j < p.unroll ∧ v.group * p.row + v.thread + k * (p.groups * p.row) < p.limit ∧
        x = v.group * p.row + v.thread + k * (p.groups * p.row) + j * p.threads
    | .rest k => ∃ w, p.Takes v.group w v.thread ∧ x = p.limit + w + k * p.workers ∧ x < p.count

/-- A cell of the rows by row, turn and column. -/
theorem main_cell (hrow : p.row = p.threads * p.unroll) (g t k j : ℕ) :
    g * p.row + t + k * (p.groups * p.row) + j * p.threads =
      ((k * p.groups + g) * p.unroll + j) * p.threads + t := by
  rw [hrow]
  ring

theorem main_lt (ht : t < p.threads) (hle : p.threads ≤ p.row) :
    g * p.row + t + k * (p.groups * p.row) < p.limit ↔
      k * p.groups + g < p.limit / p.row := by
  have hlimit := Nat.div_mul_cancel p.row_dvd
  have heq : g * p.row + t + k * (p.groups * p.row) = (k * p.groups + g) * p.row + t := by ring
  rw [heq]
  constructor
  · intro h
    by_contra hge
    have hmul := Nat.mul_le_mul_right p.row (Nat.le_of_not_lt hge)
    omega
  · intro h
    have := cell_lt h (ht.trans_le hle)
    omega

theorem threads_le_row (hrow : p.row = p.threads * p.unroll) : p.threads ≤ p.row := by
  rw [hrow]
  exact Nat.le_mul_of_pos_right _ (by have := p.unroll_gt; omega)

theorem exists_main (hrow : p.row = p.threads * p.unroll) (hx : x < p.limit) :
    ∃ g t k j, p.Within ⟨g, t, .main k j⟩ x := by
  have hunroll : 0 < p.unroll := by have := p.unroll_gt; omega
  have ht := Nat.mod_lt x p.threads_pos
  have hj := Nat.mod_lt (x / p.threads) hunroll
  have hg := Nat.mod_lt (x / p.threads / p.unroll) p.groups_pos
  have hcell : x = ((x / p.threads / p.unroll / p.groups * p.groups +
      x / p.threads / p.unroll % p.groups) * p.unroll + x / p.threads % p.unroll) * p.threads +
        x % p.threads := by
    rw [Nat.div_add_mod', Nat.div_add_mod', Nat.div_add_mod']
  refine ⟨x / p.threads / p.unroll % p.groups, x % p.threads, x / p.threads / p.unroll / p.groups,
    x / p.threads % p.unroll, hg, ht, hj, ?_, ?_⟩
  · rw [main_lt ht (threads_le_row hrow), Nat.div_add_mod', Nat.div_div_eq_div_mul, ← hrow]
    exact Nat.div_lt_div_of_lt_of_dvd p.row_dvd hx
  · rw [main_cell hrow]
    exact hcell

theorem workers_pos (p : Rows) : 0 < p.workers := by
  rw [workers]
  split
  · exact p.threads_pos
  · exact Nat.mul_pos p.groups_pos p.threads_pos

theorem exists_takes {w : ℕ} (hw : w < p.workers) (hne : p.tail = .one → p.count ≠ p.limit) :
    ∃ g < p.groups, ∃ t < p.threads, p.Takes g w t := by
  rw [workers] at hw
  cases htail : p.tail with
  | one =>
    rw [htail] at hw
    refine ⟨p.limit / p.row % p.groups, Nat.mod_lt _ p.groups_pos, w, hw, ?_⟩
    rw [Takes, htail]
    exact ⟨hne htail, rfl, rfl⟩
  | all =>
    rw [htail] at hw
    refine ⟨w / p.threads, Nat.div_lt_of_lt_mul (by rwa [Nat.mul_comm]), w % p.threads,
      Nat.mod_lt _ p.threads_pos, ?_⟩
    rw [Takes, htail]
    exact (Nat.div_add_mod' _ _).symm

theorem Takes.lt {w : ℕ} (h : p.Takes g w t) (hg : g < p.groups) (ht : t < p.threads) :
    w < p.workers := by
  rw [workers]
  cases htail : p.tail with
  | one =>
    rw [Takes, htail] at h
    obtain ⟨-, -, rfl⟩ := h
    exact ht
  | all =>
    rw [Takes, htail] at h
    rw [h]
    exact cell_lt hg ht

theorem Takes.number {w w' : ℕ} (h : p.Takes g w t) (h' : p.Takes g w' t) : w = w' := by
  cases htail : p.tail with
  | one =>
    rw [Takes, htail] at h h'
    exact h.2.2.trans h'.2.2.symm
  | all =>
    rw [Takes, htail] at h h'
    exact h.trans h'.symm

theorem Takes.unique {w g' t' : ℕ} (h : p.Takes g w t) (h' : p.Takes g' w t') (ht : t < p.threads)
    (ht' : t' < p.threads) : g = g' ∧ t = t' := by
  cases htail : p.tail with
  | one =>
    rw [Takes, htail] at h h'
    exact ⟨h.2.1.trans h'.2.1.symm, h.2.2.symm.trans h'.2.2⟩
  | all =>
    rw [Takes, htail] at h h'
    exact (cell_inj ht ht').mp (h.symm.trans h')

theorem exists_rest (hle : p.limit ≤ x) (hx : x < p.count) :
    ∃ g t k, p.Within ⟨g, t, .rest k⟩ x := by
  obtain ⟨g, hg, t, ht, htakes⟩ := exists_takes (p := p) (Nat.mod_lt (x - p.limit) p.workers_pos)
    fun _ => by omega
  refine ⟨g, t, (x - p.limit) / p.workers, hg, ht, _, htakes, ?_, hx⟩
  have hdiv := Nat.div_add_mod' (x - p.limit) p.workers
  omega

theorem exists_within (hrow : 0 < p.limit → p.row = p.threads * p.unroll) (hx : x < p.count) :
    ∃ v, p.Within v x := by
  rcases Nat.lt_or_ge x p.limit with hlt | hge
  · obtain ⟨g, t, k, j, h⟩ := exists_main (hrow (by omega)) hlt
    exact ⟨_, h⟩
  · obtain ⟨g, t, k, h⟩ := exists_rest hge hx
    exact ⟨_, h⟩

theorem Within.lt_limit (h : p.Within ⟨g, t, .main k j⟩ x)
    (hrow : 0 < p.limit → p.row = p.threads * p.unroll) : x < p.limit := by
  obtain ⟨hg, ht, hj, hk, rfl⟩ := h
  have hlimit := Nat.div_mul_cancel p.row_dvd
  have hrow := hrow ((Nat.zero_le _).trans_lt hk)
  rw [main_lt ht (threads_le_row hrow)] at hk
  have hcell := cell_lt (cell_lt hk hj) ht
  rw [main_cell hrow]
  rwa [Nat.mul_assoc, Nat.mul_comm p.unroll, ← hrow, hlimit] at hcell

theorem Within.lt_count (h : p.Within v x) (hrow : 0 < p.limit → p.row = p.threads * p.unroll) :
    x < p.count := by
  obtain ⟨g, t, (⟨k, j⟩ | k)⟩ := v
  · exact (h.lt_limit hrow).trans_le p.limit_le
  · obtain ⟨-, -, w, -, -, hx⟩ := h
    exact hx

theorem within_unique {v' : LoopVisit} (hrow : 0 < p.limit → p.row = p.threads * p.unroll)
    (h : p.Within v x) (h' : p.Within v' x) : v = v' := by
  obtain ⟨g, t, slot⟩ := v
  obtain ⟨g', t', slot'⟩ := v'
  cases slot with
  | main k j =>
    have hx := h.lt_limit hrow
    cases slot' with
    | main k' j' =>
      have hrow := hrow ((Nat.zero_le x).trans_lt hx)
      obtain ⟨hg, ht, hj, -, hx⟩ := h
      obtain ⟨hg', ht', hj', -, hx'⟩ := h'
      rw [hx, main_cell hrow, main_cell hrow, cell_inj ht ht', cell_inj hj hj', cell_inj hg hg']
        at hx'
      obtain ⟨⟨⟨rfl, rfl⟩, rfl⟩, rfl⟩ := hx'
      rfl
    | rest k' =>
      obtain ⟨-, -, w, -, hx', -⟩ := h'
      omega
  | rest k =>
    cases slot' with
    | main k' j' =>
      have hx := h'.lt_limit hrow
      obtain ⟨-, -, w, -, hx', -⟩ := h
      omega
    | rest k' =>
      obtain ⟨hg, ht, w, htakes, hx, -⟩ := h
      obtain ⟨hg', ht', w', htakes', hx', -⟩ := h'
      have hcell : k * p.workers + w = k' * p.workers + w' := by omega
      obtain ⟨rfl, rfl⟩ := (cell_inj (htakes.lt hg ht) (htakes'.lt hg' ht')).mp hcell
      obtain ⟨rfl, rfl⟩ := htakes.unique htakes' ht ht'
      rfl

end Rows

end TorchComms.Foundation
