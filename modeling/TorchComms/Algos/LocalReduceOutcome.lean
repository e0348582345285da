import TorchComms.Algos.LocalReduceExact

/-! # What the device reduces

All threads together reduce every element once, exactly when no 32-bit index wraps. Then the order of
their loads and stores does not matter.
-/
namespace TorchComms.Algos.LocalReduce
open Foundation

variable {L : Launch} {p : Path} {t : Thread L} {k x : ℕ} {B : Buffers} {v : Visit L}

/-! ## Indices that do not wrap -/

theorem Fits.runs_iff (h : Fits p L) (hpos : 0 < L.count) (v : Visit L) :
    v.Runs p ↔ v.Within p := by
  obtain ⟨t, (⟨k, j, q⟩ | k)⟩ := v
  · change _ ∧ j < (p.loops L t).unroll ∧ q < (p.loops L t).words ↔ _ ∧ _ ∧ _
    rw [(h.main hpos t k).1, loops_unroll, loops_words]
  · exact (h.epilogue hpos t k).1

theorem Fits.visit (h : Fits p L) (hpos : 0 < L.count) (hv : v.Within p) :
    v.source p = v.element p ∧ v.store p = v.element p := by
  obtain ⟨t, (⟨k, j, q⟩ | k)⟩ := v
  · obtain ⟨hcounter, htarget⟩ := (h.main hpos t k).2.1 hv.1
    have hlt := hv.main_lt_limit
    change p.first t + k * p.sweep L + j * kWarpSize * p.words L + q < p.limit L at hlt
    have hM : p.limit L ≤ (p.loops L t).modulus := by
      have hcount := h.threads_lt hpos
      have hle := p.limit_le L
      cases p with
      | vectorized =>
        change _ ≤ 2 ^ 32
        omega
      | fallback =>
        change _ ≤ 2 ^ 64
        omega
    constructor
    · have hmod : p.first t + k * p.sweep L + j * kWarpSize * p.words L <
          (p.loops L t).modulus := by omega
      change (counter _ _ _ k + j * kWarpSize * (p.loops L t).words) % _ + q = _
      rw [hcounter, loops_words, Nat.mod_eq_of_lt hmod]
      rfl
    · change (p.loops L t).target k + j * kWarpSize * (p.loops L t).words + q = _
      rw [htarget, loops_words]
      rfl
  · have hcounter := (h.epilogue hpos t k).2.1 hv
    exact ⟨hcounter, hcounter⟩

theorem not_runs_of_zero (hzero : L.count = 0) (v : Visit L) : ¬ v.Runs p := by
  have hlimit : p.limit L = 0 := Nat.eq_zero_of_le_zero (hzero ▸ p.limit_le L)
  obtain ⟨t, (⟨k, j, q⟩ | k)⟩ := v
  · rintro ⟨hex, -, -⟩
    have hlt := hex 0 (Nat.zero_le _)
    rw [loops_limit, hlimit] at hlt
    exact Nat.not_lt_zero _ hlt
  · intro hex
    have hlt := hex 0 (Nat.zero_le _)
    rw [hzero] at hlt
    exact Nat.not_lt_zero _ hlt

/-! ## Every element once -/

/-- The loops of all threads end, each element is stored once, and no other is touched. -/
structure Exact (p : Path) (L : Launch) : Prop where
  ends : ∀ t : Thread L, (p.loops L t).Ends L
  once : ∀ x < L.count, ∃! v : Visit L, v.Runs p ∧ v.store p = x
  inside : ∀ v : Visit L, v.Runs p → v.source p < L.count ∧ v.store p < L.count

theorem Fits.exact (h : Fits p L) : Exact p L := by
  rcases Nat.eq_zero_or_pos L.count with hzero | hpos
  · have hlimit : p.limit L = 0 := Nat.eq_zero_of_le_zero (hzero ▸ p.limit_le L)
    constructor
    · intro t
      refine ⟨⟨0, ?_⟩, 0, ?_⟩
      · rw [loops_limit, hlimit]
        exact Nat.zero_le _
      · rw [hzero]
        exact Nat.zero_le _
    · intro x hx
      rw [hzero] at hx
      exact absurd hx (Nat.not_lt_zero x)
    · exact fun v hv => absurd hv (not_runs_of_zero hzero v)
  · constructor
    · exact fun t => ⟨(h.main hpos t 0).2.2, (h.epilogue hpos t 0).2.2⟩
    · intro x hx
      obtain ⟨v, hv, hvx⟩ := exists_visit p hx
      refine ⟨v, ⟨(h.runs_iff hpos v).mpr hv, (h.visit hpos hv).2.trans hvx⟩, ?_⟩
      rintro v' ⟨hr, hv'x⟩
      have hv' := (h.runs_iff hpos v').mp hr
      rw [(h.visit hpos hv').2] at hv'x
      exact visit_unique hv' hv (hv'x.trans hvx.symm)
    · intro v hr
      have hv := (h.runs_iff hpos v).mp hr
      rw [(h.visit hpos hv).1, (h.visit hpos hv).2]
      exact ⟨hv.lt, hv.lt⟩

/-! ## Indices that wrap -/

theorem counter_zero (M stride : ℕ) : counter M stride 0 0 = 0 := by
  rw [counter, Nat.zero_mul, Nat.zero_mod]

/-- A thread whose unrolled loop starts at the first element stores it. -/
theorem runs_zero (hlimit : 0 < p.limit L) (hstart : (p.loops L t).start = 0) :
    (⟨t, .main 0 0 0⟩ : Visit L).Runs p ∧ (⟨t, .main 0 0 0⟩ : Visit L).store p = 0 := by
  have hcounter : counter (p.loops L t).modulus (p.loops L t).stride (p.loops L t).start 0 = 0 := by
    rw [hstart, counter_zero]
  refine ⟨⟨?_, ?_, ?_⟩, ?_⟩
  · intro j hj
    rw [Nat.le_zero.mp hj, hcounter, loops_limit]
    exact hlimit
  · rw [loops_unroll]
    exact p.unroll_pos
  · rw [loops_words]
    exact p.words_pos L
  · change (p.loops L t).target 0 + 0 * kWarpSize * (p.loops L t).words + 0 = 0
    rw [Nat.zero_mul, Nat.zero_mul, Nat.add_zero]
    cases p with
    | vectorized =>
      change (Path.vectorized.loops L t).start + 0 * _ = 0
      rw [hstart, Nat.zero_mul]
    | fallback => exact hcounter

theorem start_zero (h : t.linear = 0) : (p.loops L t).start = 0 := by
  have hlin : t.linearThreadId = 0 := by
    rw [Thread.linearThreadId_eq, h]
    rfl
  have hlane : t.laneId = 0 := by
    rw [t.laneId_eq, h]
    rfl
  cases p with
  | vectorized =>
    change u32 (t.linearThreadId / kWarpSize * _ + t.laneId * _) = 0
    rw [hlin, hlane, Nat.zero_div, Nat.zero_mul, Nat.zero_mul]
    rfl
  | fallback =>
    change u32 (t.linearThreadId / kWarpSize * _ + t.laneId) = 0
    rw [hlin, hlane, Nat.zero_div, Nat.zero_mul]
    rfl

theorem exists_zero (p : Path) (hpos : 0 < L.count) :
    ∃ v : Visit L, v.Runs p ∧ v.store p = 0 ∧ v.thread.linear = 0 ∧
      (p.limit L = 0 ∧ v.slot = .epilogue 0 ∨ 0 < p.limit L ∧ v.slot = .main 0 0 0) := by
  have hlin := linear_thread L.threads_pos
  rcases Nat.eq_zero_or_pos (p.limit L) with hzero | hlimit
  · have hcounter : counter (2 ^ 32) L.reduceStride
        (p.loops L (L.thread 0 L.threads_pos)).epilogue 0 = 0 := by
      rw [epilogue_counter, hzero, hlin, Nat.zero_add, counter_zero]
    refine ⟨⟨L.thread 0 L.threads_pos, .epilogue 0⟩, ?_, hcounter, hlin, .inl ⟨hzero, rfl⟩⟩
    intro j hj
    rw [Nat.le_zero.mp hj, hcounter]
    exact hpos
  · obtain ⟨hruns, hstore⟩ := runs_zero hlimit (start_zero (p := p) hlin)
    exact ⟨_, hruns, hstore, hlin, .inr ⟨hlimit, rfl⟩⟩

theorem Exact.count_fits (h : Exact p L) : L.count = 0 ∨ L.count + L.threads ≤ 2 ^ 32 := by
  by_contra hno
  obtain ⟨hzero, hlarge⟩ := not_or.mp hno
  have hpos := Nat.pos_of_ne_zero hzero
  rcases Nat.lt_or_ge L.count (2 ^ 32) with hcount | hcount
  · -- the thread whose counter becomes 0 again stores the first element, too
    have hle := p.limit_le L
    have hthread : (2 ^ 32 - p.limit L) % L.threads < L.threads := Nat.mod_lt _ L.threads_pos
    have hdiv := Nat.div_add_mod' (2 ^ 32 - p.limit L) L.threads
    have hk : p.limit L + (L.thread _ hthread).linear +
        (2 ^ 32 - p.limit L) / L.threads * L.threads = 2 ^ 32 := by
      rw [linear_thread]
      omega
    have hruns : (⟨L.thread _ hthread, .epilogue ((2 ^ 32 - p.limit L) / L.threads)⟩ :
        Visit L).Runs p :=
      epilogue_executes.mpr (executes_wrapped hpos (by omega) hk (by omega))
    have hstore : (⟨L.thread _ hthread, .epilogue ((2 ^ 32 - p.limit L) / L.threads)⟩ :
        Visit L).store p = 0 := by
      change counter _ _ _ _ = 0
      rw [epilogue_counter, counter, hk, Nat.mod_self]
    obtain ⟨v, hv, hvstore, hlin, hslot⟩ := exists_zero p hpos
    have heq := (h.once 0 hpos).unique ⟨hruns, hstore⟩ ⟨hv, hvstore⟩
    rw [← heq] at hslot hlin
    rcases hslot with ⟨hlimit, hslot⟩ | ⟨-, hslot⟩
    · rw [Slot.epilogue.injEq] at hslot
      rw [hlin, hslot, hlimit] at hk
      omega
    · cases hslot
  · exact not_ends (by decide) hcount (h.ends (L.thread 0 L.threads_pos)).2

theorem perWarp_dvd (L : Launch) : Path.vectorized.perWarp L ∣ 2 ^ 32 := by
  have hwords : 16 / L.sizeofT ∣ 16 := Nat.div_dvd_of_dvd L.sizeofT_dvd
  have hrows : kWarpSize * (16 / L.sizeofT) * 4 ∣ kWarpSize * 16 * 4 :=
    Nat.mul_dvd_mul_right (Nat.mul_dvd_mul_left _ hwords) _
  exact hrows.trans (by decide)

theorem Exact.vectorized_fits (h : Exact .vectorized L) (hT : L.threads < 2 ^ 32)
    (hlimit : 0 < Path.vectorized.limit L) (hcount : L.count ≤ 2 ^ 32) :
    Path.vectorized.limit L + Path.vectorized.sweep L ≤ 2 ^ 32 := by
  by_contra hlarge
  have hle := Path.vectorized.limit_le L
  -- the warp whose counter becomes 0 again
  have hm := Nat.div_mul_cancel (perWarp_dvd L)
  generalize 2 ^ 32 / Path.vectorized.perWarp L = m at hm
  have hr : m % (L.threads / kWarpSize) * kWarpSize < L.threads := by
    conv_rhs => rw [← L.warps_threads]
    exact Nat.mul_lt_mul_of_pos_right (Nat.mod_lt _ L.warps_pos) (by decide)
  have hfirst : Path.vectorized.first (L.thread _ hr) =
      m % (L.threads / kWarpSize) * Path.vectorized.perWarp L := by
    rw [Path.first, linear_thread, Nat.mul_div_cancel _ (by decide), Nat.mul_mod_left,
      Nat.zero_mul, Nat.add_zero]
  have hk : Path.vectorized.first (L.thread _ hr) +
      m / (L.threads / kWarpSize) * Path.vectorized.sweep L = 2 ^ 32 := by
    rw [hfirst, Path.sweep, ← Nat.mul_assoc, ← Nat.add_mul, Nat.mod_add_div', hm]
  have hcounter : counter (2 ^ 32) (Path.vectorized.loops L (L.thread _ hr)).stride
      (Path.vectorized.loops L (L.thread _ hr)).start (m / (L.threads / kWarpSize)) = 0 := by
    rw [start_eq hT, stride_eq hT]
    change counter _ (_ % 2 ^ 32) (_ % 2 ^ 32) _ = 0
    rw [counter_mod, counter, hk, Nat.mod_self]
  have hruns : (⟨L.thread _ hr, .main (m / (L.threads / kWarpSize)) 0 0⟩ :
      Visit L).Runs .vectorized := by
    refine ⟨?_, Path.vectorized.unroll_pos, Path.vectorized.words_pos L⟩
    rw [start_eq hT, stride_eq hT, loops_limit]
    change Executes (2 ^ 32) _ (_ % 2 ^ 32) (_ % 2 ^ 32) _
    rw [executes_mod]
    exact executes_wrapped hlimit (by omega) hk (by omega)
  have hstore : (⟨L.thread _ hr, .main (m / (L.threads / kWarpSize)) 0 0⟩ :
      Visit L).store .vectorized = 0 := by
    have hlt := (h.inside _ hruns).2
    change (Path.vectorized.loops L (L.thread _ hr)).start +
      m / (L.threads / kWarpSize) * (Path.vectorized.loops L (L.thread _ hr)).stride +
      0 * kWarpSize * _ + 0 < L.count at hlt
    change (Path.vectorized.loops L (L.thread _ hr)).start +
      m / (L.threads / kWarpSize) * (Path.vectorized.loops L (L.thread _ hr)).stride +
      0 * kWarpSize * _ + 0 = 0
    rw [Nat.zero_mul, Nat.zero_mul, Nat.add_zero] at hlt ⊢
    rwa [counter, Nat.mod_eq_of_lt (by omega)] at hcounter
  obtain ⟨v, hv, hvstore, hlin, hslot⟩ := exists_zero .vectorized (L := L) (by omega)
  have heq := (h.once 0 (by omega)).unique ⟨hruns, hstore⟩ ⟨hv, hvstore⟩
  rw [← heq] at hslot hlin
  rcases hslot with ⟨hzero, -⟩ | ⟨-, hslot⟩
  · omega
  · rw [Slot.main.injEq] at hslot
    rw [linear_thread] at hlin
    rw [hfirst, hslot.1, Nat.zero_mul, Nat.add_zero] at hk
    have hzero : m % (L.threads / kWarpSize) = 0 :=
      (Nat.mul_eq_zero.mp hlin).resolve_right (by decide)
    rw [hzero, Nat.zero_mul] at hk
    omega

theorem Exact.fallback_fits (h : Exact .fallback L) (hT : L.threads < 2 ^ 32)
    (hlimit : 0 < Path.fallback.limit L) : Path.fallback.sweep L < 2 ^ 32 := by
  by_contra hlarge
  have hle := Path.fallback.limit_le L
  have hsweep : Path.fallback.sweep L = L.threads / kWarpSize * 256 := rfl
  rcases Nat.lt_or_ge (2 ^ 29) L.threads with hwrap | hexact
  · -- the start of this thread is 0 again
    have hstart : (Path.fallback.loops L (L.thread _ hwrap)).start = 0 := by
      have hwarp : 2 ^ 29 / kWarpSize = 2 ^ 24 := by decide
      have hlane : 2 ^ 29 % kWarpSize = 0 := by decide
      have hrows : Path.fallback.perWarp L = 256 := rfl
      rw [start_eq hT, Path.first, linear_thread, hwarp, hlane, hrows, Nat.zero_mul]
      decide
    obtain ⟨hruns, hstore⟩ := runs_zero hlimit hstart
    obtain ⟨v, hv, hvstore, hlin, -⟩ := exists_zero .fallback (L := L) (by omega)
    have heq := (h.once 0 (by omega)).unique ⟨hruns, hstore⟩ ⟨hv, hvstore⟩
    rw [← heq, linear_thread] at hlin
    omega
  · -- the stride is 0
    have hthreads : L.threads = 2 ^ 29 := by
      have hdiv := Nat.div_le_div_right (c := kWarpSize) hexact
      have hcancel := L.warps_threads
      change _ ≤ 2 ^ 24 at hdiv
      change _ * 32 = _ at hcancel
      omega
    have hstride : (Path.fallback.loops L (L.thread 0 L.threads_pos)).stride = 0 := by
      rw [stride_eq hT, hsweep, hthreads]
      rfl
    have hends := (h.ends (L.thread 0 L.threads_pos)).1
    rw [hstride, start_zero (linear_thread L.threads_pos), loops_limit] at hends
    exact not_ends_of_stride (by rwa [Nat.zero_mod]) hends

theorem exact_iff (p : Path) (L : Launch) : Exact p L ↔ Fits p L := by
  constructor
  · intro h
    refine ⟨h.count_fits, ?_⟩
    rcases Nat.eq_zero_or_pos (p.limit L) with hzero | hlimit
    · exact .inl hzero
    · right
      have hle := p.limit_le L
      have hcount := h.count_fits.resolve_left (by omega)
      have hpos := L.threads_pos
      cases p with
      | vectorized => exact h.vectorized_fits (by omega) hlimit (by omega)
      | fallback => exact h.fallback_fits (by omega) hlimit
  · exact Fits.exact

/-! ## The memory -/

variable {α : Type*} {value : List α → α}

theorem Fits.owned (h : Fits p L) : (tasks value p L B).Owned (Visit.Runs p) := by
  rcases Nat.eq_zero_or_pos L.count with hzero | hpos
  · exact ⟨fun v hv => absurd hv (not_runs_of_zero hzero v),
      fun v _ hv => absurd hv (not_runs_of_zero hzero v)⟩
  · constructor
    · intro v hv
      obtain ⟨hsource, hstore⟩ := h.visit hpos ((h.runs_iff hpos v).mp hv)
      exact hsource.trans hstore.symm
    · intro v v' hv hv' heq
      have hw := (h.runs_iff hpos v).mp hv
      have hw' := (h.runs_iff hpos v').mp hv'
      apply visit_unique hw hw'
      rw [← (h.visit hpos hw).2, ← (h.visit hpos hw').2]
      exact heq

/-- After all loads and stores, whatever their order, each destination has the reduction of what the
sources held, and all else is as it was. -/
def Reduces (value : List α → α) (p : Path) (L : Launch) (B : Buffers) : Prop :=
  ∀ (c : Cells (Visit L) ℕ α) (trace : List (Access (Visit L))),
    (tasks value p L B).Ordered (Visit.Runs p) trace → ∀ a x,
      ((tasks value p L B).final c trace).mem a x =
        if a ∈ B.dsts ∧ x < L.count then value (B.srcs.map fun src => c.mem src x) else c.mem a x

theorem srcs_map (B : Buffers) (f : ℕ → α) :
    (List.range B.srcs.length).map (fun j => f (B.srcs.getD j 0)) = B.srcs.map f := by
  apply List.ext_getElem
  · simp
  · intro j hj _
    have hj' : j < B.srcs.length := by simpa using hj
    simp [List.getElem?_eq_getElem hj']

theorem tasks_dst {d : ℕ} (hd : d < B.dsts.length) : (tasks value p L B).dsts d = B.dsts[d] := by
  change B.dsts.getD d 0 = _
  simp [List.getElem?_eq_getElem hd]

theorem Fits.reduces (h : Fits p L) : Reduces value p L B := by
  intro c trace hord a x
  split
  · next hin =>
    obtain ⟨v, ⟨hv, hvx⟩, -⟩ := h.exact.once x hin.2
    obtain ⟨d, hd, rfl⟩ := List.getElem_of_mem hin.1
    have hown : (tasks value p L B).Owned (Visit.Runs p) := h.owned
    have hmem := Tasks.final_mem (c := c) hown hord hv hd hvx
    rw [tasks_dst hd] at hmem
    rw [hmem]
    exact congrArg value (srcs_map B fun src => c.mem src x)
  · next hout =>
    apply Tasks.final_kept h.owned hord
    intro v d hv hd hb hx
    apply hout
    constructor
    · rw [← hb, tasks_dst hd]
      exact List.getElem_mem hd
    · rw [← hx]
      exact (h.exact.inside v hv).2

/-- A path writes every element once, with the full reduction, and nothing else. -/
def Correct (value : List α → α) (p : Path) (L : Launch) (B : Buffers) : Prop :=
  Exact p L ∧ Reduces value p L B

theorem path_correct_iff : Correct value p L B ↔ Fits p L := by
  constructor
  · exact fun h => (exact_iff p L).mp h.1
  · exact fun h => ⟨h.exact, h.reduces⟩

/-- When `localReduce` is right, and either path by itself, and then with the same result. -/
theorem localReduce_correct_iff [Add α] [Mul α] [LT α] [DecidableLT α] [Inhabited α]
    (redOp : RedOp) (divide : α → ℤ → α) (nRanks : ℤ) (B : Buffers) (L : Launch) :
    (Correct (reduced redOp divide nRanks) (localReduce B L) L B ↔ Fits (localReduce B L) L) ∧
      (Correct (reduced redOp divide nRanks) .vectorized L B ↔ Fits .vectorized L) ∧
      (Correct (reduced redOp divide nRanks) .fallback L B ↔ Fits .fallback L) :=
  ⟨path_correct_iff, path_correct_iff, path_correct_iff⟩

/-- One warp on `2 ^ 32 - 1` elements with aligned arrays, and on `2 ^ 32` elements. -/
theorem not_correct_large :
    (∃ B L, L.count = 2 ^ 32 - 1 ∧ L.threads = 32 ∧ localReduce B L = .vectorized ∧
      ¬ Correct (reduced .commSum (fun a _ => a) 1 : List ℤ → ℤ) (localReduce B L) L B) ∧
    ∃ B L, L.count = 2 ^ 32 ∧ L.threads = 32 ∧ localReduce B L = .fallback ∧
      ¬ Correct (reduced .commSum (fun a _ => a) 1 : List ℤ → ℤ) (localReduce B L) L B := by
  refine ⟨⟨⟨[16, 32], [16], by decide, by decide, by decide⟩,
    ⟨32, 1, 2 ^ 32 - 1, 4, ⟨1, rfl⟩, by decide, by decide, by decide⟩, rfl, rfl, rfl, ?_⟩,
    ⟨[16, 32], [16], by decide, by decide, by decide⟩,
    ⟨32, 1, 2 ^ 32, 4, ⟨1, rfl⟩, by decide, by decide, by decide⟩, rfl, rfl, rfl, ?_⟩ <;>
  · rw [path_correct_iff]
    rintro ⟨hcount, -⟩
    revert hcount
    decide

end TorchComms.Algos.LocalReduce
