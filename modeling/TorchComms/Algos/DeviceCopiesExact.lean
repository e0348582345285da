import TorchComms.Algos.DeviceCopies

/-! # Which copies are complete

Groups and thread blocks copy their range as long as no index wraps. Warps start at their lanes, so
that a second warp copies what the first one does.
-/
namespace TorchComms.Algos.DeviceCopies
open Foundation
open LocalReduce (u32 roundDown kWarpSize)

variable {G : Grid} {J K : Job} {count x : ℕ}

/-! ## Groups -/

/-- The rows of `copy`. -/
def Grid.rows (G : Grid) (J : Job) : Rows where
  m := 2 ^ 32
  M := 2 ^ 64
  threads := G.blockDim
  unroll := 16 / J.sizeofT * 4
  groups := G.nGroups
  count := J.count
  tail := .one
  threads_pos := G.blockDim_pos
  threads_lt := G.blockDim_lt
  unroll_gt := by
    have hpos := Nat.div_pos (Nat.le_of_dvd (by decide) J.sizeofT_dvd)
      (Nat.pos_of_dvd_of_pos J.sizeofT_dvd (by decide))
    omega
  groups_pos := G.nGroups_pos
  count_lt := J.count_lt
  words := by decide

variable {place : ℕ → ℕ} {groupIdx : ℕ} {lane : ℕ}

theorem loops_eq (hg : groupIdx < G.nGroups) (threadIdx : ℕ) :
    J.loops G groupIdx threadIdx = (G.rows J).thread groupIdx threadIdx := by
  rw [Job.loops, copy, if_neg (Nat.not_le_of_lt hg)]
  rfl

theorem loops_idle (hg : G.nGroups ≤ groupIdx) (threadIdx : ℕ) :
    J.loops G groupIdx threadIdx = .idle := if_pos hg

theorem not_runs_idle (slot : LoopSlot) : ¬ ThreadLoops.idle.Runs slot := by
  cases slot with
  | main k j =>
    rintro ⟨-, hj⟩
    exact Nat.not_lt_zero j hj
  | rest k =>
    rintro ⟨r, hr, -⟩
    cases hr

theorem copied_iff : J.Copied G ↔ (G.rows J).Fits := by
  rw [← Rows.exact_iff]
  constructor
  · intro h
    exact ⟨h.once.congr fun g hg t _ => loops_eq hg t, h.divides⟩
  · intro h
    refine ⟨h.divides, h.toVisitsOnce.congr fun g hg t _ => (loops_eq hg t).symm, ?_⟩
    intro g hg t slot
    rw [loops_idle hg]
    exact not_runs_idle slot

theorem Job.sizeofT_pos (J : Job) : 0 < J.sizeofT :=
  Nat.pos_of_dvd_of_pos J.sizeofT_dvd (by decide)

theorem Job.Copied.writes (h : J.Copied G) (b : ℕ) : J.Writes G b ↔ b < J.count * J.sizeofT := by
  rw [← Nat.div_lt_iff_lt_mul J.sizeofT_pos]
  constructor
  · rintro ⟨v, hv, hb⟩
    rw [← hb]
    exact h.once.inside v hv
  · intro hb
    obtain ⟨v, ⟨hv, hvb⟩, -⟩ := h.once.once _ hb
    exact ⟨v, hv, hvb⟩

theorem standsFor_iff : K.StandsFor J G ↔
    (G.rows K).Fits ∧ (G.rows J).Fits ∧ K.count * K.sizeofT = J.count * J.sizeofT := by
  rw [← copied_iff, ← copied_iff]
  constructor
  · rintro ⟨hK, hJ, hsame⟩
    refine ⟨hK, hJ, ?_⟩
    have hiff : ∀ b, b < K.count * K.sizeofT ↔ b < J.count * J.sizeofT := by
      intro b
      rw [← hK.writes, ← hJ.writes]
      exact hsame b
    apply Nat.le_antisymm
    · exact Nat.not_lt.mp fun hlt => Nat.lt_irrefl _ ((hiff _).mp hlt)
    · exact Nat.not_lt.mp fun hlt => Nat.lt_irrefl _ ((hiff _).mpr hlt)
  · rintro ⟨hK, hJ, heq⟩
    refine ⟨hK, hJ, fun b => ?_⟩
    rw [hK.writes, hJ.writes, heq]

theorem vectors_eq_iff {sendbuff recvbuff : ℕ} (h : J.canCopy16 sendbuff recvbuff = true) :
    J.vectors.count * J.vectors.sizeofT = J.count * J.sizeofT ↔ J.count * J.sizeofT < 2 ^ 64 := by
  have hdvd : u64 (J.count * J.sizeofT) % 16 = 0 := by
    simp only [Job.canCopy16, Bool.and_eq_true, decide_eq_true_eq] at h
    exact h.2
  have hcount : J.vectors.count * J.vectors.sizeofT = u64 (J.count * J.sizeofT) :=
    Nat.div_mul_cancel (Nat.dvd_of_mod_eq_zero hdvd)
  rw [hcount, u64]
  constructor
  · intro heq
    rw [← heq]
    exact Nat.mod_lt _ (by decide)
  · exact Nat.mod_eq_of_lt

/-! ## One thread block -/

def Grid.vectorRows (G : Grid) (count : ℕ) (h : count < 2 ^ 64) : Rows where
  m := 2 ^ 32
  M := 2 ^ 64
  threads := G.blockDim
  unroll := 8
  groups := 1
  count := count
  tail := .all
  threads_pos := G.blockDim_pos
  threads_lt := G.blockDim_lt
  unroll_gt := by decide
  groups_pos := Nat.one_pos
  count_lt := h
  words := by decide

theorem copyVectors_eq {threadIdx : ℕ} (h : count < 2 ^ 64) (ht : threadIdx < G.blockDim) :
    copyVectors G.blockDim count threadIdx = (G.vectorRows count h).thread 0 threadIdx := by
  have hlt := G.blockDim_lt
  have hstart : (0 * (G.vectorRows count h).row + threadIdx) % 2 ^ 32 = threadIdx := by
    rw [Nat.zero_mul, Nat.zero_add]
    exact Nat.mod_eq_of_lt (ht.trans hlt)
  have hstride : 1 * (G.vectorRows count h).row % 2 ^ 32 = u32 (G.blockDim * 8) := by
    rw [Nat.one_mul]
    exact Nat.mod_mod _ _
  have hrest : 1 * G.blockDim % 2 ^ 64 = G.blockDim := by
    rw [Nat.one_mul]
    exact Nat.mod_eq_of_lt (by omega)
  change _ = ThreadLoops.mk (2 ^ 64) count _ ((0 * _ + threadIdx) % 2 ^ 32) (1 * _ % 2 ^ 32) 8 _
    (some (_, 1 * G.blockDim % 2 ^ 64))
  rw [hstart, hstride, hrest]
  rfl

theorem vectorsCopied_iff (h : count < 2 ^ 64) :
    VectorsCopied G count ↔ (G.vectorRows count h).Fits := by
  have heq : ∀ g < 1, ∀ t < G.blockDim, copyVectors G.blockDim count t =
      (G.vectorRows count h).thread g t := by
    intro g hg t ht
    rw [Nat.lt_one_iff.mp hg]
    exact copyVectors_eq h ht
  rw [← Rows.exact_iff]
  constructor
  · exact fun hcopied => ⟨hcopied.once.congr heq, hcopied.divides⟩
  · intro hexact
    exact ⟨hexact.divides, hexact.toVisitsOnce.congr fun g hg t ht => (heq g hg t ht).symm⟩

/-! ## Warps -/

theorem laneId_eq (warpId place : ℕ) (h : lane < kWarpSize) :
    u32 (warpId * kWarpSize + (place * kWarpSize + lane)) &&& (kWarpSize - 1) = lane := by
  have hmod : ∀ n, n &&& (kWarpSize - 1) = n % kWarpSize :=
    fun n => Nat.and_two_pow_sub_one_eq_mod n 5
  have hdvd : (u32 (warpId * kWarpSize + (place * kWarpSize + lane))) % kWarpSize =
      (warpId * kWarpSize + (place * kWarpSize + lane)) % kWarpSize :=
    Nat.mod_mod_of_dvd _ (by decide)
  rw [hmod, hdvd, Nat.mul_comm warpId, Nat.mul_add_mod, Nat.mul_comm place, Nat.mul_add_mod]
  exact Nat.mod_eq_of_lt h

/-- What a lane does. -/
def laneLoop (count numWarps lane : ℕ) : ThreadLoops :=
  ⟨2 ^ 64, count, count, lane, kWarpSize * numWarps, 1, fun _ => 0, none⟩

theorem copyWarp_eq (count warpId numWarps place : ℕ) (h : lane < kWarpSize) :
    copyWarp count warpId numWarps (place * kWarpSize + lane) = laneLoop count numWarps lane := by
  rw [copyWarp, laneId_eq warpId place h]
  rfl

theorem laneLoop_ends (count numWarps lane : ℕ) : (laneLoop count numWarps lane).Ends ↔
    Ends (2 ^ 64) count (kWarpSize * numWarps) lane := by
  constructor
  · exact fun h => h.1
  · refine fun h => ⟨h, ?_⟩
    intro r hr
    cases hr

theorem laneLoop_visits (count numWarps lane : ℕ) :
    (∃ slot, (laneLoop count numWarps lane).Runs slot ∧
      (laneLoop count numWarps lane).cell slot = x) ↔
    ∃ k, Executes (2 ^ 64) count (kWarpSize * numWarps) lane k ∧
      counter (2 ^ 64) (kWarpSize * numWarps) lane k = x := by
  have hcell : ∀ k j, (laneLoop count numWarps lane).cell (.main k j) =
      counter (2 ^ 64) (kWarpSize * numWarps) lane k := fun k j => Nat.mod_mod _ _
  constructor
  · rintro ⟨k | k, hruns, hx⟩
    · exact ⟨k, hruns.1, (hcell k _).symm.trans hx⟩
    · obtain ⟨r, hr, -⟩ := hruns
      cases hr
  · rintro ⟨k, hex, hx⟩
    exact ⟨.main k 0, ⟨hex, Nat.one_pos⟩, (hcell k 0).trans hx⟩

variable {numWarps : ℕ}

theorem warpsCopy_iff (hpos : 0 < numWarps) :
    WarpsCopy count numWarps place ↔
      (∀ lane < kWarpSize, Ends (2 ^ 64) count (kWarpSize * numWarps) lane) ∧
        ∀ x < count, ∃ lane < kWarpSize, ∃ k,
          Executes (2 ^ 64) count (kWarpSize * numWarps) lane k ∧
            counter (2 ^ 64) (kWarpSize * numWarps) lane k = x := by
  constructor
  · intro h
    constructor
    · intro lane hlane
      rw [← laneLoop_ends, ← copyWarp_eq count 0 numWarps (place 0) hlane]
      exact h.ends 0 hpos lane hlane
    · intro x hx
      obtain ⟨warpId, -, lane, hlane, hvisit⟩ := h.covers x hx
      rw [copyWarp_eq count warpId numWarps (place warpId) hlane] at hvisit
      exact ⟨lane, hlane, (laneLoop_visits count numWarps lane).mp hvisit⟩
  · rintro ⟨hends, hcovers⟩
    constructor
    · intro warpId _ lane hlane
      rw [copyWarp_eq count warpId numWarps (place warpId) hlane, laneLoop_ends]
      exact hends lane hlane
    · intro x hx
      obtain ⟨lane, hlane, hvisit⟩ := hcovers x hx
      refine ⟨0, hpos, lane, hlane, ?_⟩
      rw [copyWarp_eq count 0 numWarps (place 0) hlane]
      exact (laneLoop_visits count numWarps lane).mpr hvisit

theorem lane_zero_le (numWarps k : ℕ) :
    counter (2 ^ 64) (kWarpSize * numWarps) 0 k + kWarpSize ≤ 2 ^ 64 := by
  have hk : 0 + k * (kWarpSize * numWarps) = 32 * (k * numWarps) := by
    rw [kWarpSize]
    ring
  rw [counter, hk, kWarpSize]
  omega

theorem not_covers (hcount : count < 2 ^ 64) (hmany : 2 ≤ numWarps)
    (hlt : kWarpSize * numWarps < 2 ^ 31) (hlarge : kWarpSize < count)
    (hends : Ends (2 ^ 64) count (kWarpSize * numWarps) 0) :
    ∃ x < count, ∀ lane < kWarpSize, ∀ k,
      Executes (2 ^ 64) count (kWarpSize * numWarps) lane k →
        counter (2 ^ 64) (kWarpSize * numWarps) lane k ≠ x := by
  have hstride : 64 ≤ kWarpSize * numWarps := Nat.mul_le_mul_left 32 hmany
  have hends' : count + kWarpSize ≤ 2 ^ 64 := by
    obtain ⟨k, hk⟩ := hends
    exact (Nat.add_le_add_right hk _).trans (lane_zero_le numWarps k)
  have hprev : ∀ lane k, Executes (2 ^ 64) count (kWarpSize * numWarps) lane (k + 1) →
      ∃ v < count, counter (2 ^ 64) (kWarpSize * numWarps) lane (k + 1) =
        (v + kWarpSize * numWarps) % 2 ^ 64 := by
    intro lane k hex
    refine ⟨_, hex k (Nat.le_succ k), ?_⟩
    rw [counter, counter, Nat.mod_add_mod, Nat.add_mul, Nat.one_mul, Nat.add_assoc]
  generalize kWarpSize * numWarps = stride at *
  rw [kWarpSize] at *
  rcases Nat.lt_or_ge (stride - 32) count with hin | hout
  · refine ⟨stride - 32, hin, fun lane hlane k hex hx => ?_⟩
    cases k with
    | zero =>
      rw [counter, Nat.zero_mul, Nat.add_zero] at hx
      omega
    | succ k =>
      obtain ⟨v, hv, hcounter⟩ := hprev lane k hex
      omega
  · refine ⟨32, hlarge, fun lane hlane k hex hx => ?_⟩
    cases k with
    | zero =>
      rw [counter, Nat.zero_mul, Nat.add_zero] at hx
      omega
    | succ k =>
      obtain ⟨v, hv, hcounter⟩ := hprev lane k hex
      omega

theorem warpsCopy_iff_one (hcount : count < 2 ^ 64)
    (hpos : 0 < numWarps) (hlt : kWarpSize * numWarps < 2 ^ 31) :
    WarpsCopy count numWarps place ↔
      count ≤ kWarpSize ∨ numWarps = 1 ∧ count + kWarpSize ≤ 2 ^ 64 := by
  rw [warpsCopy_iff hpos]
  constructor
  · rintro ⟨hends, hcovers⟩
    rcases Nat.lt_or_ge kWarpSize count with hlarge | hsmall
    · right
      have hzero := hends 0 (by decide)
      constructor
      · by_contra hne
        obtain ⟨x, hx, hno⟩ := not_covers hcount (by omega) hlt hlarge hzero
        obtain ⟨lane, hlane, k, hex, hk⟩ := hcovers x hx
        exact hno lane hlane k hex hk
      · obtain ⟨k, hk⟩ := hzero
        exact (Nat.add_le_add_right hk _).trans (lane_zero_le numWarps k)
    · exact .inl hsmall
  · rintro (hsmall | ⟨rfl, hfit⟩)
    · have hstride : kWarpSize ≤ kWarpSize * numWarps := Nat.le_mul_of_pos_right _ hpos
      generalize kWarpSize * numWarps = stride at *
      constructor
      · intro lane hlane
        refine ⟨1, ?_⟩
        rw [counter, Nat.one_mul, Nat.mod_eq_of_lt]
        · omega
        · rw [kWarpSize] at *
          omega
      · intro x hx
        have hcounter : counter (2 ^ 64) stride x 0 = x := by
          rw [counter, Nat.zero_mul, Nat.add_zero]
          exact Nat.mod_eq_of_lt (hx.trans hcount)
        refine ⟨x, hx.trans_le hsmall, 0, fun j hj => ?_, hcounter⟩
        rw [Nat.le_zero.mp hj, hcounter]
        exact hx
    · rw [Nat.mul_one]
      constructor
      · intro lane hlane
        exact ends_of_le (by decide) hfit (Nat.lt_add_left _ hlane)
      · intro x hx
        have hdiv := Nat.mod_add_div' x kWarpSize
        refine ⟨x % kWarpSize, Nat.mod_lt _ (by decide), x / kWarpSize, ?_, ?_⟩
        · exact executes_of_lt (by omega) (by omega)
        · rw [counter, hdiv]
          exact Nat.mod_eq_of_lt (hx.trans hcount)

/-! ## All copies -/

/-- No index wraps, and at most one warp has more than its lanes to copy. -/
structure Call.Fits (c : Call) : Prop where
  groups : (c.grid.rows c.job).Fits
  vectors : (c.grid.vectorRows c.job.count c.job.count_lt).Fits
  warps : c.job.count ≤ kWarpSize ∨ c.numWarps = 1 ∧ c.job.count + kWarpSize ≤ 2 ^ 64
  kernCopy : c.sendbuff ≠ c.recvbuff → c.job.canCopy16 c.sendbuff c.recvbuff = true →
    (c.grid.rows c.job.vectors).Fits ∧ c.job.count * c.job.sizeofT < 2 ^ 64
  put : c.sendbuff ≠ c.recvbuff → 0 < c.job.count →
    (c.grid.rows (bytes c.job.count c.job.count_lt)).Fits ∧
      ((bytes c.job.count c.job.count_lt).canCopy16 c.sendbuff c.recvbuff = true →
        (c.grid.rows (bytes c.job.count c.job.count_lt).vectors).Fits)

theorem kernCopy_iff (J : Job) (G : Grid) (sendbuff recvbuff : ℕ) :
    (∀ K ∈ J.ctranKernCopy sendbuff recvbuff, K.StandsFor J G) ↔
      (sendbuff ≠ recvbuff → (G.rows J).Fits) ∧
        (sendbuff ≠ recvbuff → J.canCopy16 sendbuff recvbuff = true →
          (G.rows J.vectors).Fits ∧ J.count * J.sizeofT < 2 ^ 64) := by
  by_cases hne : sendbuff ≠ recvbuff
  · by_cases hcan : J.canCopy16 sendbuff recvbuff = true
    · have hpath : J.ctranKernCopy sendbuff recvbuff = some J.vectors := by
        rw [Job.ctranKernCopy, if_pos hne, if_pos hcan]
      simp only [hpath, Option.mem_some_iff, forall_eq', standsFor_iff, vectors_eq_iff hcan,
        hcan]
      tauto
    · have hpath : J.ctranKernCopy sendbuff recvbuff = some J := by
        rw [Job.ctranKernCopy, if_pos hne, if_neg hcan]
      simp only [hpath, Option.mem_some_iff, forall_eq', standsFor_iff, hcan]
      tauto
  · have hpath : J.ctranKernCopy sendbuff recvbuff = none := if_neg hne
    simp only [hpath, hne]
    simp

theorem bytes_vectors (nbytes : ℕ) (h : nbytes < 2 ^ 64) : (bytes nbytes h).vectors =
    ⟨16, nbytes / 16, Nat.dvd_refl 16, (Nat.div_le_self _ _).trans_lt h⟩ := by
  have hwhole : u64 (nbytes * 1) = nbytes := by
    rw [Nat.mul_one]
    exact Nat.mod_eq_of_lt h
  simp only [Job.vectors, bytes, hwhole]

theorem putCopy_eq (sendbuff recvbuff nbytes : ℕ) (h : nbytes < 2 ^ 64) (hpos : 0 < nbytes) :
    putCopy sendbuff recvbuff nbytes h = (bytes nbytes h).ctranKernCopy sendbuff recvbuff := by
  rw [putCopy, Job.ctranKernCopy, bytes_vectors]
  simp only [hpos, and_true]

theorem put_iff (G : Grid) (sendbuff recvbuff nbytes : ℕ) (h : nbytes < 2 ^ 64) :
    (∀ K ∈ putCopy sendbuff recvbuff nbytes h, K.StandsFor (bytes nbytes h) G) ↔
      (sendbuff ≠ recvbuff → 0 < nbytes → (G.rows (bytes nbytes h)).Fits ∧
        ((bytes nbytes h).canCopy16 sendbuff recvbuff = true →
          (G.rows (bytes nbytes h).vectors).Fits)) := by
  rcases Nat.eq_zero_or_pos nbytes with hzero | hpos
  · have hpath : putCopy sendbuff recvbuff nbytes h = none := if_neg fun hif => by omega
    rw [hpath]
    constructor
    · exact fun _ _ hpos => absurd hpos (by omega)
    · intro _ K hK
      cases hK
  · have hlt : (bytes nbytes h).count * (bytes nbytes h).sizeofT < 2 ^ 64 :=
      (Nat.mul_one nbytes).trans_lt h
    rw [putCopy_eq _ _ _ _ hpos, kernCopy_iff]
    constructor
    · exact fun hfits hne _ => ⟨hfits.1 hne, fun hcan => (hfits.2 hne hcan).1⟩
    · exact fun hfits => ⟨fun hne => (hfits hne hpos).1,
        fun hne hcan => ⟨(hfits hne hpos).2 hcan, hlt⟩⟩

/-- When the copies are complete. -/
theorem deviceCopies_correct_iff (c : Call) : c.Correct ↔ c.Fits := by
  constructor
  · rintro ⟨hgroups, hvectors, hwarps, hkern, hput⟩
    exact ⟨copied_iff.mp hgroups, (vectorsCopied_iff c.job.count_lt).mp hvectors,
      (warpsCopy_iff_one c.job.count_lt c.numWarps_pos c.numWarps_lt).mp hwarps,
      ((kernCopy_iff _ _ _ _).mp hkern).2, (put_iff _ _ _ _ _).mp hput⟩
  · rintro ⟨hgroups, hvectors, hwarps, hkern, hput⟩
    exact ⟨copied_iff.mpr hgroups, (vectorsCopied_iff c.job.count_lt).mpr hvectors,
      (warpsCopy_iff_one c.job.count_lt c.numWarps_pos c.numWarps_lt).mpr hwarps,
      (kernCopy_iff _ _ _ _).mpr ⟨fun _ => hgroups, hkern⟩, (put_iff _ _ _ _ _).mpr hput⟩

/-- Two warps on 64 bytes: the second half is not copied, and all else is. -/
theorem not_correct_two_warps : ∃ c : Call, c.numWarps = 2 ∧ c.job.count = 64 ∧
    (c.grid.rows c.job).Fits ∧ ¬ c.Correct := by
  refine ⟨⟨⟨64, 1, by decide, by decide, by decide, by decide⟩, bytes 64 (by decide), 2, id, 0, 0,
    by decide, by decide⟩, rfl, rfl, ⟨by decide, .inl (by decide), .inr (by decide)⟩, fun h => ?_⟩
  have hwarps := (warpsCopy_iff_one (by decide) (by decide) (by decide)).mp h.warps
  revert hwarps
  decide

end TorchComms.Algos.DeviceCopies
