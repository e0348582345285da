import TorchComms.Algos.StridedReduce

/-! # Strided blocks without a barrier

The rounds need no barrier between thread blocks as long as each element stays with one of them. The
two ways to give out elements differ in this, and only the last round can take the vectorized one.
-/
namespace TorchComms.Algos.StridedReduce
open Foundation LocalReduce Function

variable {L : Launch} {S : Strided L} {p : Path} {r x : ℕ} {v : Visit L}

/-! ## The thread block of an element -/

def worker (p : Path) (L : Launch) (x : ℕ) : ℕ :=
  if x < p.limit L then
    x / p.perWarp L % (L.threads / kWarpSize) / (L.blockDim / kWarpSize)
  else (x - p.limit L) % L.threads / L.blockDim

theorem linear_div_blockDim (t : Thread L) : t.linear / L.blockDim = t.workerId :=
  cell_div t.threadIdx_lt

theorem warp_div_warps (t : Thread L) :
    t.linear / kWarpSize / (L.blockDim / kWarpSize) = t.workerId := by
  rw [Nat.div_div_eq_div_mul, Nat.mul_div_cancel' L.warps, linear_div_blockDim]

theorem workerId_eq (hv : v.Within p) : v.thread.workerId = worker p L (v.element p) := by
  obtain ⟨t, (⟨k, j, q⟩ | k)⟩ := v
  · obtain ⟨-, hj, hq⟩ := id hv
    have hrow : (p.first t + k * p.sweep L + j * kWarpSize * p.words L + q) / p.perWarp L =
        k * (L.threads / kWarpSize) + t.linear / kWarpSize := by
      have hrows : p.perWarp L = p.words L * kWarpSize * p.unroll := by
        rw [Path.perWarp, Nat.mul_comm kWarpSize]
      rw [element_main, hrows, ← Nat.div_div_eq_div_mul, ← Nat.div_div_eq_div_mul, cell_div hq,
        cell_div (Nat.mod_lt _ (by decide)), cell_div hj]
    change t.workerId = worker p L _
    rw [worker, if_pos hv.main_lt_limit]
    change _ = (p.first t + k * p.sweep L + j * kWarpSize * p.words L + q) / p.perWarp L % _ / _
    rw [hrow, cell_mod t.warp_lt, warp_div_warps]
  · have hrest : p.limit L + t.linear + k * L.threads - p.limit L =
        k * L.threads + t.linear := by
      omega
    change t.workerId = worker p L (p.limit L + t.linear + k * L.threads)
    rw [worker, if_neg (by omega), hrest, cell_mod t.linear_lt, linear_div_blockDim]

/-- Rounds that give an element to a thread block give it to the same one. -/
def Strided.SameBlocks (S : Strided L) : Prop :=
  ∀ ρ ∈ S.ctranKernMultiStridedReduce, ∀ ρ' ∈ S.ctranKernMultiStridedReduce, ∀ x < L.count,
    worker (ρ.path L) L x = worker (ρ'.path L) L x

/-- No index of a round wraps. -/
def Strided.Fits (S : Strided L) : Prop :=
  ∀ ρ ∈ S.ctranKernMultiStridedReduce, LocalReduce.Fits (ρ.path L) L

/-- The path of a round by its number. -/
def Strided.pathAt (S : Strided L) (r : ℕ) : Path :=
  (S.ctranKernMultiStridedReduce.getD r default).path L

theorem getD_mem (hr : r < S.ctranKernMultiStridedReduce.length) :
    S.ctranKernMultiStridedReduce.getD r default ∈ S.ctranKernMultiStridedReduce := by
  have heq : S.ctranKernMultiStridedReduce.getD r default = S.ctranKernMultiStridedReduce[r] := by
    simp [List.getElem?_eq_getElem hr]
  rw [heq]
  exact List.getElem_mem hr

theorem pathAt_fallback (hr : r + 1 < S.ctranKernMultiStridedReduce.length) :
    S.pathAt r = .fallback := by
  have hlen := (kernel_emits S).full_length r hr
  rw [Strided.pathAt, Round.path]
  generalize S.ctranKernMultiStridedReduce.getD r default = ρ at hlen
  have hsrcs : ρ.buffers.srcs.length = 32 := hlen
  simp [localReduce, hsrcs]

section Value

variable {α : Type} [Add α] [Mul α] [LT α] [DecidableLT α] [Inhabited α] {redOp : RedOp}
  {finalReduce : Bool} {divide : α → ℤ → α} {nRanks : ℤ}

theorem rounds_exact (hfits : S.Fits) : (rounds S redOp finalReduce divide nRanks).Exact := by
  constructor
  · intro r v hr hv
    have howned : (((rounds S redOp finalReduce divide nRanks).tasks r)).Owned
        (Visit.Runs (S.pathAt r)) := (hfits _ (getD_mem hr)).owned
    exact howned.1 v hv
  · intro r v hr hv
    exact ((hfits _ (getD_mem hr)).exact.inside v hv).2
  · intro r x hr hx
    exact ((hfits _ (getD_mem hr)).exact.once x hx).exists
  · intro r v v' hr hv hv' heq
    have hinside := ((hfits _ (getD_mem hr)).exact.inside v' hv').2
    exact ((hfits _ (getD_mem hr)).exact.once _ hinside).unique ⟨hv, heq⟩ ⟨hv', rfl⟩

theorem blockOf_eq (hfits : S.Fits) (hr : r < S.ctranKernMultiStridedReduce.length)
    (hv : v.Runs (S.pathAt r)) (hx : v.store (S.pathAt r) = x) :
    (rounds S redOp finalReduce divide nRanks).blockOf v = worker (S.pathAt r) L x := by
  have hfit : LocalReduce.Fits (S.pathAt r) L := hfits _ (getD_mem hr)
  have hpos : 0 < L.count := (Nat.zero_le _).trans_lt (hfit.exact.inside v hv).2
  have hwithin := (hfit.runs_iff hpos v).mp hv
  rw [← hx, (hfit.visit hpos hwithin).2]
  exact workerId_eq hwithin

theorem Strided.SameBlocks.agree (hsame : S.SameBlocks) (hfits : S.Fits) :
    (rounds S redOp finalReduce divide nRanks).Agree := by
  intro r r' v v' hr hr' hv hv' heq
  rw [blockOf_eq hfits hr hv rfl, blockOf_eq hfits hr' hv' rfl]
  rw [show v.store (S.pathAt r) = v'.store (S.pathAt r') from heq]
  exact hsame _ (getD_mem hr) _ (getD_mem hr') _ ((hfits _ (getD_mem hr')).exact.inside v' hv').2

theorem Strided.SameBlocks.right (hsame : S.SameBlocks) (hfits : S.Fits) :
    Right S redOp finalReduce divide nRanks := by
  intro trace hlegal c x hx
  rw [hlegal.final_eq_after (rounds_exact hfits) (hsame.agree hfits) hx]
  exact after_dst ((Nat.zero_le x).trans_lt hx) _

end Value

/-! ## A race -/

/-- Where two rounds give an element to different thread blocks these are the last round and any
before it. -/
theorem exists_differ (hnot : ¬ S.SameBlocks) :
    ∃ m x, S.ctranKernMultiStridedReduce.length = m + 2 ∧ x < L.count ∧
      worker (S.pathAt (m + 1)) L x ≠ worker .fallback L x := by
  obtain ⟨n, hn⟩ := Nat.exists_eq_succ_of_ne_zero
    (List.length_pos_iff.mpr (kernel_emits S).ne_nil).ne'
  by_contra hall
  have hlast : ∀ r < n + 1, ∀ x < L.count,
      worker (S.pathAt r) L x = worker (S.pathAt n) L x := by
    intro r hr x hx
    rcases Nat.lt_succ_iff_lt_or_eq.mp hr with hlt | rfl
    · by_contra hne
      apply hall
      rw [pathAt_fallback (by omega)] at hne
      refine ⟨n - 1, x, by omega, hx, ?_⟩
      rw [show n - 1 + 1 = n by omega]
      exact fun heq => hne heq.symm
    · rfl
  apply hnot
  intro ρ hρ ρ' hρ' x hx
  obtain ⟨r, hr, rfl⟩ := List.getElem_of_mem hρ
  obtain ⟨r', hr', rfl⟩ := List.getElem_of_mem hρ'
  have hpath : ∀ r (hr : r < S.ctranKernMultiStridedReduce.length),
      S.ctranKernMultiStridedReduce[r].path L = S.pathAt r := by
    intro r hr
    simp [Strided.pathAt, List.getElem?_eq_getElem hr]
  rw [hpath r hr, hpath r' hr', hlast r (hr.trans_eq hn) x hx,
    hlast r' (hr'.trans_eq hn) x hx]

section Sum

variable (divide : ℤ → ℤ → ℤ) (nRanks : ℤ) (finalReduce : Bool)

theorem racing (hfits : S.Fits) {m : ℕ} (hlen : S.ctranKernMultiStridedReduce.length = m + 2)
    (hx : x < L.count) (hne : worker (S.pathAt (m + 1)) L x ≠ worker .fallback L x) :
    ∃ va vb, (rounds S .commSum finalReduce divide nRanks).Racing m x va vb := by
  have hR : (rounds S .commSum finalReduce divide nRanks).Exact := rounds_exact hfits
  have hm : m < S.ctranKernMultiStridedReduce.length := by omega
  have hm' : m + 1 < S.ctranKernMultiStridedReduce.length := by omega
  obtain ⟨va, hva, hvax⟩ := hR.covered hm' hx
  obtain ⟨vb, hvb, hvbx⟩ := hR.covered hm hx
  have hfirst : ∀ r ≤ m, ∀ v, v.Runs (S.pathAt r) → v.store (S.pathAt r) = x →
      (rounds S .commSum finalReduce divide nRanks).blockOf v = worker .fallback L x := by
    intro r hr v hv hvx
    rw [blockOf_eq hfits (by omega) hv hvx, pathAt_fallback (by omega)]
  refine ⟨va, vb, hlen, ⟨hvb, hvbx⟩, ⟨hva, hvax⟩, ?_, ?_⟩
  · intro r hr v hv hvx
    rw [hfirst r hr v hv hvx, hfirst m (Nat.le_refl m) vb hvb hvbx]
  · rw [blockOf_eq hfits hm' hva hvax, hfirst m (Nat.le_refl m) vb hvb hvbx]
    exact hne

theorem not_right (hfits : S.Fits) (hnot : ¬ S.SameBlocks) :
    ¬ Right S .commSum finalReduce divide nRanks := by
  intro hright
  obtain ⟨m, x, hlen, hx, hne⟩ := exists_differ hnot
  have hcount : 0 < L.count := (Nat.zero_le x).trans_lt hx
  obtain ⟨va, vb, hracing⟩ := racing divide nRanks finalReduce hfits hlen hx hne
  obtain ⟨trace, hlegal, hfinal⟩ := hracing.exists_legal (rounds_exact hfits)
  have hgot := hfinal ⟨fun _ _ => 1, fun _ _ => 0⟩
  have hwant := hright trace hlegal ⟨fun _ _ => 1, fun _ _ => 0⟩ x hx
  dsimp only at hgot hwant
  have hlast := (kernel_emits S).last_dst
  obtain ⟨rest, hsrcs, hrest⟩ := (kernel_emits S).next hcount m (by omega)
  obtain ⟨hbelow, hnew⟩ := (kernel_emits S).grows finalReduce divide nRanks (fun _ => 1)
    hcount (fun _ => Int.le_refl 1) (fun _ _ _ => rfl) rfl m (by omega)
  rw [← rounds_after (by omega)] at hbelow hnew
  rw [← after_dst hcount, hlen, Rounds.after, tasks_value, tasks_redDst] at hwant
  rw [tasks_value, tasks_redDst] at hgot
  rw [hlen, show m + 2 - 1 = m + 1 by omega] at hlast
  rw [hlast, update_self] at hwant
  rw [hlast, hwant, hsrcs, redOp_commSum, reduced_commSum, reduced_commSum, List.map_cons,
    List.map_cons, List.sum_cons, List.sum_cons, hnew] at hgot
  have hkept : rest.map ((rounds S .commSum finalReduce divide nRanks).after (fun _ => 1) (m + 1)) =
      rest.map ((rounds S .commSum finalReduce divide nRanks).after (fun _ => 1) m) := by
    apply List.map_congr_left
    intro a ha
    rw [Rounds.after, tasks_redDst, update_of_ne]
    rintro rfl
    exact hrest ha
  rw [hkept] at hgot
  have hold := hbelow (S.ctranKernMultiStridedReduce.getD m default).redDst
  omega

end Sum

theorem Correct.fits (h : Correct S) : S.Fits := fun ρ hρ => (exact_iff _ _).mp (h.exact ρ hρ)

theorem Correct.sameBlocks (h : Correct S) : S.SameBlocks := by
  by_contra hnot
  exact not_right (fun a _ => a) 1 false h.fits hnot (h.right ℤ .commSum false _ 1)

/-- No barrier between thread blocks is needed exactly when every element stays with one of them. -/
theorem stridedReduce_correct_iff (S : Strided L) : Correct S ↔ S.Fits ∧ S.SameBlocks := by
  constructor
  · exact fun h => ⟨h.fits, h.sameBlocks⟩
  · rintro ⟨hfits, hsame⟩
    constructor
    · exact fun ρ hρ => (hfits ρ hρ).exact
    · intro α _ _ _ _ _ redOp finalReduce divide nRanks
      exact hsame.right hfits

/-- Two warps in two thread blocks. -/
def launch : Launch := ⟨32, 2, 512, 4, ⟨1, rfl⟩, by decide, Nat.two_pos, by decide⟩

/-- 33 blocks of 512 words each, out of place and aligned. -/
def strided : Strided launch where
  dst := 0
  stridedSrc := 2048
  numBlocks := 33
  stride := 512
  inplaceBlockIdx := -1
  numBlocks_pos := by decide
  inplaceBlockIdx_ge := by decide
  inplaceBlockIdx_lt := by decide
  count_le := by decide
  apart := fun _ _ => .inl (Nat.le_add_right 2048 _)

theorem strided_paths :
    strided.ctranKernMultiStridedReduce.map (fun ρ => ρ.path launch) = [.fallback, .vectorized] := by
  decide

/-- The second round has two sources, and gives the second half to the first thread block. -/
theorem not_correct_strided : ¬ Correct strided := by
  intro h
  have hmem : ∀ p ∈ [Path.fallback, .vectorized],
      ∃ ρ ∈ strided.ctranKernMultiStridedReduce, ρ.path launch = p := by
    intro p hp
    rw [← strided_paths] at hp
    exact List.mem_map.mp hp
  obtain ⟨ρ, hρ, hfirst⟩ := hmem .fallback (by decide)
  obtain ⟨ρ', hρ', hsecond⟩ := hmem .vectorized (by decide)
  have heq := h.sameBlocks ρ hρ ρ' hρ' 256 (by decide)
  rw [hfirst, hsecond] at heq
  revert heq
  decide

end TorchComms.Algos.StridedReduce
