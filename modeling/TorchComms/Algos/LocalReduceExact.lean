import TorchComms.Algos.LocalReduce
import TorchComms.Foundation.Cutting
import Mathlib.Tactic.Ring

/-! # Who reduces which element

A warp takes `kWordsPerWarp` elements at a time, in rows of one vector for each lane, and what is left
goes to the threads one by one. Each element has one thread as long as no 32-bit index wraps.
-/
namespace TorchComms.Algos.LocalReduce
open Foundation

variable {L : Launch} {p : Path} {t : Thread L} {k x : ℕ}

/-! ## Threads by number -/

def Launch.threads (L : Launch) : ℕ := L.numWorkers * L.blockDim

def Thread.linear (t : Thread L) : ℕ := t.workerId * L.blockDim + t.threadIdx

theorem Thread.linear_lt (t : Thread L) : t.linear < L.threads :=
  cell_lt t.workerId_lt t.threadIdx_lt

theorem Thread.warp_lt (t : Thread L) : t.linear / kWarpSize < L.threads / kWarpSize :=
  Nat.div_lt_div_of_lt_of_dvd (L.warps.mul_left _) t.linear_lt

theorem Thread.linear_inj {t t' : Thread L} (h : t.linear = t'.linear) : t = t' := by
  obtain ⟨hw, hi⟩ := (cell_inj t.threadIdx_lt t'.threadIdx_lt).mp h
  cases t
  cases t'
  cases hw
  cases hi
  rfl

/-- The thread of a number. -/
def Launch.thread (L : Launch) (x : ℕ) (h : x < L.threads) : Thread L where
  workerId := x / L.blockDim
  threadIdx := x % L.blockDim
  workerId_lt := Nat.div_lt_of_lt_mul (by rwa [Nat.mul_comm])
  threadIdx_lt := Nat.mod_lt _ L.blockDim_pos

theorem linear_thread (h : x < L.threads) : (L.thread x h).linear = x := Nat.div_add_mod' x _

theorem Launch.threads_pos (L : Launch) : 0 < L.threads :=
  Nat.mul_pos L.numWorkers_pos L.blockDim_pos

theorem Launch.warps_threads (L : Launch) : L.threads / kWarpSize * kWarpSize = L.threads :=
  Nat.div_mul_cancel (L.warps.mul_left _)

theorem Launch.warps_pos (L : Launch) : 0 < L.threads / kWarpSize := by
  apply Nat.pos_of_ne_zero
  intro hzero
  have hthreads := L.warps_threads
  rw [hzero, Nat.zero_mul] at hthreads
  exact absurd L.threads_pos (hthreads ▸ Nat.lt_irrefl 0)

theorem Thread.laneId_eq (t : Thread L) : t.laneId = t.linear % kWarpSize := by
  obtain ⟨b, hb⟩ := L.warps
  have hlin : t.linear = kWarpSize * (t.workerId * b) + t.threadIdx := by
    rw [Thread.linear, hb]
    ring
  rw [Thread.laneId, hlin, Nat.mul_add_mod]

theorem Thread.linearThreadId_eq (t : Thread L) : t.linearThreadId = u32 t.linear := by
  rw [Thread.linearThreadId, Thread.linear, Nat.mul_comm]

/-! ## Rows of a path -/

def Path.unroll : Path → ℕ
  | .vectorized => 4
  | .fallback => 8

def Path.words (p : Path) (L : Launch) : ℕ :=
  match p with
  | .vectorized => 16 / L.sizeofT
  | .fallback => 1

def Path.perWarp (p : Path) (L : Launch) : ℕ := kWarpSize * p.words L * p.unroll

/-- Where the unrolled loop of a path ends. -/
def Path.limit (p : Path) (L : Launch) : ℕ :=
  match p with
  | .vectorized => roundDown (u32 L.count) (p.perWarp L)
  | .fallback => roundDown L.count (p.perWarp L)

/-- What all warps together take in a turn. -/
def Path.sweep (p : Path) (L : Launch) : ℕ := L.threads / kWarpSize * p.perWarp L

/-- The first element of a thread. -/
def Path.first (p : Path) (t : Thread L) : ℕ :=
  t.linear / kWarpSize * p.perWarp L + t.linear % kWarpSize * p.words L

/-- No index wraps. -/
def Fits (p : Path) (L : Launch) : Prop :=
  (L.count = 0 ∨ L.count + L.threads ≤ 2 ^ 32) ∧
    (p.limit L = 0 ∨
      match p with
      | .vectorized => p.limit L + p.sweep L ≤ 2 ^ 32
      | .fallback => p.sweep L < 2 ^ 32)

theorem Path.words_pos (p : Path) (L : Launch) : 0 < p.words L := by
  cases p with
  | vectorized =>
    exact Nat.div_pos (Nat.le_of_dvd (by decide) L.sizeofT_dvd)
      (Nat.pos_of_dvd_of_pos L.sizeofT_dvd (by decide))
  | fallback => exact Nat.one_pos

theorem Path.unroll_pos (p : Path) : 0 < p.unroll := by cases p <;> decide

theorem Path.perWarp_pos (p : Path) (L : Launch) : 0 < p.perWarp L :=
  Nat.mul_pos (Nat.mul_pos (by decide) (p.words_pos L)) p.unroll_pos

theorem Path.sweep_pos (p : Path) (L : Launch) : 0 < p.sweep L :=
  Nat.mul_pos L.warps_pos (p.perWarp_pos L)

theorem loops_unroll : (p.loops L t).unroll = p.unroll := by cases p <;> rfl

theorem loops_words : (p.loops L t).words = p.words L := by cases p <;> rfl

theorem loops_limit : (p.loops L t).limitCount = p.limit L := by cases p <;> rfl

theorem roundDown_le (a b : ℕ) : roundDown a b ≤ a := Nat.div_mul_le_self a b

theorem u32_of_lt (h : x < 2 ^ 32) : u32 x = x := Nat.mod_eq_of_lt h

theorem Path.limit_le (p : Path) (L : Launch) : p.limit L ≤ L.count := by
  cases p with
  | vectorized => exact (roundDown_le _ _).trans (Nat.mod_le _ _)
  | fallback => exact roundDown_le _ _

theorem lane_lt (lane : ℕ) (hlane : lane < kWarpSize) : lane * p.words L < p.perWarp L := by
  have h1 : lane * p.words L < kWarpSize * p.words L :=
    Nat.mul_lt_mul_of_pos_right hlane (p.words_pos L)
  have h2 : kWarpSize * p.words L * 1 ≤ kWarpSize * p.words L * p.unroll :=
    Nat.mul_le_mul_left _ p.unroll_pos
  rw [Path.perWarp]
  omega

theorem Path.first_lt (p : Path) (t : Thread L) : p.first t < p.sweep L := by
  apply cell_lt
  · exact t.warp_lt
  · exact lane_lt _ (Nat.mod_lt _ (by decide))

/-! ## The loops over the naturals -/

theorem epilogue_eq : (p.loops L t).epilogue = u32 (p.limit L + t.linear) := by
  have h : ∀ l, u32 (l + t.linearThreadId) = u32 (l + t.linear) := by
    intro l
    rw [Thread.linearThreadId_eq, u32, u32, u32, Nat.add_mod_mod]
  cases p with
  | vectorized => exact h _
  | fallback => exact h _

theorem epilogue_counter : counter (2 ^ 32) L.reduceStride (p.loops L t).epilogue k =
    counter (2 ^ 32) L.threads (p.limit L + t.linear) k := by
  rw [epilogue_eq]
  exact counter_mod

theorem epilogue_executes : Executes (2 ^ 32) L.count L.reduceStride (p.loops L t).epilogue k ↔
    Executes (2 ^ 32) L.count L.threads (p.limit L + t.linear) k := by
  simp only [Executes, epilogue_counter]

theorem epilogue_ends : Ends (2 ^ 32) L.count L.reduceStride (p.loops L t).epilogue ↔
    Ends (2 ^ 32) L.count L.threads (p.limit L + t.linear) := by
  simp only [Ends, epilogue_counter]

theorem start_eq (hT : L.threads < 2 ^ 32) : (p.loops L t).start = u32 (p.first t) := by
  have hlin : t.linearThreadId = t.linear := by
    rw [Thread.linearThreadId_eq, u32_of_lt (t.linear_lt.trans hT)]
  cases p with
  | vectorized =>
    change u32 (t.linearThreadId / kWarpSize * _ + t.laneId * _) = _
    rw [hlin, t.laneId_eq]
    rfl
  | fallback =>
    change u32 (t.linearThreadId / kWarpSize * _ + t.laneId) = _
    rw [hlin, t.laneId_eq, Path.first, Path.words, Nat.mul_one]
    rfl

theorem stride_eq (hT : L.threads < 2 ^ 32) : (p.loops L t).stride = u32 (p.sweep L) := by
  have hwarps : L.numWarps = L.threads / kWarpSize := by
    change u32 L.threads / kWarpSize = _
    rw [u32_of_lt hT]
  cases p with
  | vectorized =>
    change u32 (L.numWarps * _) = _
    rw [hwarps]
    rfl
  | fallback =>
    change u32 (L.numWarps * _) = _
    rw [hwarps]
    rfl

theorem Fits.threads_lt (h : Fits p L) (hpos : 0 < L.count) :
    L.count + L.threads ≤ 2 ^ 32 := h.1.resolve_left (by omega)

theorem first_lt_limit (p : Path) (t : Thread L) : p.first t < p.limit L + p.sweep L :=
  (p.first_lt t).trans_le (Nat.le_add_left _ _)

/-- The unrolled loop of a thread, its counter and its stores. -/
theorem Fits.main (h : Fits p L) (hpos : 0 < L.count) (t : Thread L) (k : ℕ) :
    (Executes (p.loops L t).modulus (p.loops L t).limitCount (p.loops L t).stride
        (p.loops L t).start k ↔ p.first t + k * p.sweep L < p.limit L) ∧
      (p.first t + k * p.sweep L < p.limit L →
        counter (p.loops L t).modulus (p.loops L t).stride (p.loops L t).start k =
            p.first t + k * p.sweep L ∧
          (p.loops L t).target k = p.first t + k * p.sweep L) ∧
      Ends (p.loops L t).modulus (p.loops L t).limitCount (p.loops L t).stride
        (p.loops L t).start := by
  have hcount := h.threads_lt hpos
  have hT : L.threads < 2 ^ 32 := by omega
  have hle := p.limit_le L
  rw [start_eq hT, stride_eq hT, loops_limit]
  by_cases hzero : p.limit L = 0
  · rw [hzero]
    refine ⟨?_, fun hlt => absurd hlt (Nat.not_lt_zero _), 0, Nat.zero_le _⟩
    constructor
    · exact fun hex => absurd (hex 0 (Nat.zero_le _)) (Nat.not_lt_zero _)
    · exact fun hlt => absurd hlt (Nat.not_lt_zero _)
  · have hfirst := first_lt_limit p t
    have hlt := p.first_lt t
    have hfit := h.2.resolve_left hzero
    have hpos' := p.sweep_pos L
    have hM : p.limit L + p.sweep L ≤ (p.loops L t).modulus ∧ p.sweep L < 2 ^ 32 := by
      cases p with
      | vectorized => exact ⟨hfit, by change _ ≤ _ at hfit; omega⟩
      | fallback =>
        refine ⟨?_, hfit⟩
        change _ ≤ 2 ^ 64
        change Path.fallback.sweep L < 2 ^ 32 at hfit
        omega
    rw [u32_of_lt (hlt.trans hM.2), u32_of_lt hM.2]
    refine ⟨executes_iff hM.1 hfirst, fun hk => ?_, ends_of_le hpos' hM.1 hfirst⟩
    have hcounter := counter_of_lt (hk.trans_le ((Nat.le_add_right _ _).trans hM.1))
    refine ⟨hcounter, ?_⟩
    have hs := start_eq (p := p) (t := t) hT
    have hd := stride_eq (p := p) (t := t) hT
    rw [u32_of_lt (hlt.trans hM.2)] at hs
    rw [u32_of_lt hM.2] at hd
    cases p with
    | vectorized =>
      change (Path.vectorized.loops L t).start + k * (Path.vectorized.loops L t).stride = _
      rw [hs, hd]
    | fallback =>
      change counter (2 ^ 64) (Path.fallback.loops L t).stride (Path.fallback.loops L t).start k = _
      rw [hs, hd]
      exact hcounter

theorem Fits.epilogue (h : Fits p L) (hpos : 0 < L.count) (t : Thread L) (k : ℕ) :
    (Executes (2 ^ 32) L.count L.reduceStride (p.loops L t).epilogue k ↔
        p.limit L + t.linear + k * L.threads < L.count) ∧
      (p.limit L + t.linear + k * L.threads < L.count →
        counter (2 ^ 32) L.reduceStride (p.loops L t).epilogue k =
          p.limit L + t.linear + k * L.threads) ∧
      Ends (2 ^ 32) L.count L.reduceStride (p.loops L t).epilogue := by
  have hcount := h.threads_lt hpos
  have hstart : p.limit L + t.linear < L.count + L.threads :=
    Nat.add_lt_add_of_le_of_lt (p.limit_le L) t.linear_lt
  rw [epilogue_executes, epilogue_counter, epilogue_ends]
  exact ⟨executes_iff hcount hstart, fun hk => counter_of_lt (by omega),
    ends_of_le L.threads_pos hcount hstart⟩

/-! ## Each element has one visit -/

/-- The element of a visit over the naturals. -/
def Visit.element (p : Path) (v : Visit L) : ℕ :=
  match v.slot with
  | .main k j q => p.first v.thread + k * p.sweep L + j * kWarpSize * p.words L + q
  | .epilogue k => p.limit L + v.thread.linear + k * L.threads

/-- The visits over the naturals. -/
def Visit.Within (p : Path) (v : Visit L) : Prop :=
  match v.slot with
  | .main k j q => p.first v.thread + k * p.sweep L < p.limit L ∧ j < p.unroll ∧ q < p.words L
  | .epilogue k => p.limit L + v.thread.linear + k * L.threads < L.count

theorem element_main (p : Path) (t : Thread L) (k j q : ℕ) :
    p.first t + k * p.sweep L + j * kWarpSize * p.words L + q =
      (((k * (L.threads / kWarpSize) + t.linear / kWarpSize) * p.unroll + j) * kWarpSize +
        t.linear % kWarpSize) * p.words L + q := by
  rw [Path.first, Path.sweep, Path.perWarp]
  ring

theorem limit_dvd (p : Path) (L : Launch) : p.perWarp L ∣ p.limit L := by
  cases p <;> exact Nat.dvd_mul_left _ _

theorem main_lt (t : Thread L) :
    p.first t + k * p.sweep L < p.limit L ↔
      k * (L.threads / kWarpSize) + t.linear / kWarpSize < p.limit L / p.perWarp L := by
  have hlimit := Nat.div_mul_cancel (limit_dvd p L)
  have hlane := lane_lt (p := p) (L := L) _ (Nat.mod_lt t.linear (by decide : 0 < kWarpSize))
  have heq : p.first t + k * p.sweep L =
      (k * (L.threads / kWarpSize) + t.linear / kWarpSize) * p.perWarp L +
        t.linear % kWarpSize * p.words L := by
    rw [Path.first, Path.sweep]
    ring
  rw [heq]
  constructor
  · intro h
    by_contra hge
    have hle := Nat.mul_le_mul_right (p.perWarp L) (Nat.le_of_not_lt hge)
    omega
  · intro h
    have := cell_lt h hlane
    omega

theorem Visit.Within.main_lt_limit {k j q : ℕ} (h : (⟨t, .main k j q⟩ : Visit L).Within p) :
    (⟨t, .main k j q⟩ : Visit L).element p < p.limit L := by
  obtain ⟨hk, hj, hq⟩ := h
  have hlimit := Nat.div_mul_cancel (limit_dvd p L)
  change p.first t + k * p.sweep L + j * kWarpSize * p.words L + q < p.limit L
  have hrows : p.limit L =
      p.limit L / p.perWarp L * p.unroll * kWarpSize * p.words L := by
    conv_lhs => rw [← hlimit]
    generalize p.limit L / p.perWarp L = m
    rw [Path.perWarp]
    ring
  rw [element_main, hrows]
  apply cell_lt _ hq
  apply cell_lt _ (Nat.mod_lt _ (by decide))
  apply cell_lt _ hj
  exact (main_lt t).mp hk

theorem Visit.Within.lt (v : Visit L) (h : v.Within p) : v.element p < L.count := by
  obtain ⟨t, (⟨k, j, q⟩ | k)⟩ := v
  · exact h.main_lt_limit.trans_le (p.limit_le L)
  · exact h

theorem exists_main (hx : x < p.limit L) : ∃ v : Visit L, v.Within p ∧ v.element p = x := by
  have hlimit := Nat.div_mul_cancel (limit_dvd p L)
  have hR := L.warps_pos
  have hcells : x = ((x / p.words L / kWarpSize / p.unroll * p.unroll +
      x / p.words L / kWarpSize % p.unroll) * kWarpSize + x / p.words L % kWarpSize) * p.words L +
        x % p.words L := by
    rw [Nat.div_add_mod', Nat.div_add_mod', Nat.div_add_mod']
  have hwarp : x / p.words L / kWarpSize / p.unroll < p.limit L / p.perWarp L := by
    have hrows : p.words L * kWarpSize * p.unroll = p.perWarp L := by
      rw [Path.perWarp, Nat.mul_comm kWarpSize]
    rw [Nat.div_div_eq_div_mul, Nat.div_div_eq_div_mul, ← Nat.mul_assoc, hrows]
    exact Nat.div_lt_div_of_lt_of_dvd (limit_dvd p L) hx
  generalize x / p.words L / kWarpSize / p.unroll = m at hcells hwarp
  have hlane := Nat.mod_lt (x / p.words L) (by decide : 0 < kWarpSize)
  have hthread : m % (L.threads / kWarpSize) * kWarpSize + x / p.words L % kWarpSize <
      L.threads := by
    conv_rhs => rw [← L.warps_threads]
    exact cell_lt (Nat.mod_lt _ hR) hlane
  have hm : m / (L.threads / kWarpSize) * (L.threads / kWarpSize) +
      (L.thread _ hthread).linear / kWarpSize = m := by
    rw [linear_thread, cell_div hlane, Nat.div_add_mod']
  refine ⟨⟨L.thread _ hthread, .main (m / (L.threads / kWarpSize))
    (x / p.words L / kWarpSize % p.unroll) (x % p.words L)⟩, ⟨?_, ?_, ?_⟩, ?_⟩
  · rw [main_lt, hm]
    exact hwarp
  · exact Nat.mod_lt _ p.unroll_pos
  · exact Nat.mod_lt _ (p.words_pos L)
  · change p.first _ + _ * p.sweep L + _ + _ = x
    rw [element_main, hm, linear_thread, cell_mod hlane]
    exact hcells.symm

theorem exists_visit (p : Path) (hx : x < L.count) :
    ∃ v : Visit L, v.Within p ∧ v.element p = x := by
  rcases Nat.lt_or_ge x (p.limit L) with hlt | hge
  · exact exists_main hlt
  · have hthread : (x - p.limit L) % L.threads < L.threads := Nat.mod_lt _ L.threads_pos
    have heq : p.limit L + (L.thread _ hthread).linear +
        (x - p.limit L) / L.threads * L.threads = x := by
      have hdiv := Nat.div_add_mod' (x - p.limit L) L.threads
      rw [linear_thread]
      omega
    exact ⟨⟨L.thread _ hthread, .epilogue ((x - p.limit L) / L.threads)⟩, heq.trans_lt hx, heq⟩

theorem visit_unique {v v' : Visit L} (h : v.Within p) (h' : v'.Within p)
    (heq : v.element p = v'.element p) : v = v' := by
  have hpos : 0 < kWarpSize := by decide
  obtain ⟨t, (⟨k, j, q⟩ | k)⟩ := v <;> obtain ⟨t', (⟨k', j', q'⟩ | k')⟩ := v'
  · change p.first t + k * p.sweep L + j * kWarpSize * p.words L + q =
      p.first t' + k' * p.sweep L + j' * kWarpSize * p.words L + q' at heq
    obtain ⟨-, hj, hq⟩ := h
    obtain ⟨-, hj', hq'⟩ := h'
    rw [element_main, element_main, cell_inj hq hq',
      cell_inj (Nat.mod_lt _ hpos) (Nat.mod_lt _ hpos), cell_inj hj hj',
      cell_inj t.warp_lt t'.warp_lt] at heq
    obtain ⟨⟨⟨⟨rfl, hwarp⟩, rfl⟩, hlane⟩, rfl⟩ := heq
    have ht : t = t' := by
      apply Thread.linear_inj
      rw [← Nat.div_add_mod' t.linear kWarpSize, ← Nat.div_add_mod' t'.linear kWarpSize, hwarp,
        hlane]
    rw [ht]
  · have hlt := h.main_lt_limit
    rw [heq] at hlt
    change p.limit L + t'.linear + k' * L.threads < p.limit L at hlt
    omega
  · have hlt := h'.main_lt_limit
    rw [← heq] at hlt
    change p.limit L + t.linear + k * L.threads < p.limit L at hlt
    omega
  · change p.limit L + t.linear + k * L.threads = p.limit L + t'.linear + k' * L.threads at heq
    have hcell : k * L.threads + t.linear = k' * L.threads + t'.linear := by omega
    obtain ⟨rfl, hlin⟩ := (cell_inj t.linear_lt t'.linear_lt).mp hcell
    rw [Thread.linear_inj hlin]

end TorchComms.Algos.LocalReduce
