import TorchComms.AllToAllvDedup.PrepareExchange
import Mathlib.Data.Nat.Prime.Basic

/-! # What the ranks of a node tell each other

Where the number of the buckets of a node is a power of two, the masks take remainders, and every
count from the rail is stored at its place by the rounds of the threads, whatever their order. Where
it is not, a place is left as it was.
-/
namespace TorchComms.AllToAllvDedup

open Foundation

namespace PrepareConfig

variable {c : PrepareConfig}

/-! ### The forwarded blocks -/

theorem foldl_increment_of_ne {ι : Type*} (f g : ι → ℕ) (l : List ι) (m : ℕ → ℕ) {a : ℕ}
    (h : ∀ i ∈ l, f i ≠ a) : l.foldl (fun m i => increment m (f i) (g i)) m a = m a := by
  induction l generalizing m with
  | nil => rfl
  | cons i l ih =>
    rw [List.foldl_cons, ih _ fun j hj => h j (List.mem_cons_of_mem i hj), increment_apply,
      if_neg (h i List.mem_cons_self).symm, Nat.add_zero]

theorem bucketToRank_lt {j : ℕ} (hj : j < c.nLocalBuckets) : c.bucketToRank j < c.nLocalRanks :=
  Nat.div_lt_of_lt_mul hj

theorem forwardFrom_apply {rank n i : ℕ} (m : ℕ → ℕ) (s : ForwardCount) (hn : n ≠ c.node rank) :
    (c.forwardFrom rank m s i).numForwardBlocksH (c.localRankToRank (c.localRank rank) n) =
      if n = i then m (i * c.countPerRank + (c.node rank * c.countPerNode +
        (c.nLocalBuckets + c.nLocalRanks)))
      else s.numForwardBlocksH (c.localRankToRank (c.localRank rank) n) := by
  have hlocal := localRank_lt (c := c) rank
  have hwidth : c.countPerNode = c.nLocalBuckets + c.nLocalRanks + 1 := rfl
  unfold forwardFrom
  simp only
  by_cases hi : i = c.node rank
  · rw [if_pos hi, if_neg (fun h => hn (h.trans hi))]
  · rw [if_neg hi]
    by_cases hni : n = i
    · subst hni
      rw [if_pos rfl, hwidth, ← Nat.add_assoc (c.node rank * _)]
      exact Function.update_self (n * c.nLocalRanks + c.localRank rank) _ _
    · have hplace : c.localRankToRank (c.localRank rank) n ≠
          i * c.nLocalRanks + c.localRank rank :=
        fun heq => hni ((cell_inj hlocal hlocal).mp heq).1
      rw [if_neg hni]
      simp only [Function.update_of_ne hplace]
      apply foldl_increment_of_ne
      intro j hj heq
      exact hn ((cell_inj (bucketToRank_lt (List.mem_range.mp hj)) hlocal).mp heq).1.symm

theorem numForwardBlocks_eq {rank n : ℕ} (x : PrepareRank) (hn : n < c.nNodes)
    (hne : n ≠ c.node rank) :
    (c.computeNumForwardBlocks rank x).numForwardBlocks (c.localRankToRank (c.localRank rank) n) =
      x.tmpNumSendBlocksBuffH (n * c.countPerRank + (c.node rank * c.countPerNode +
        (c.nLocalBuckets + c.nLocalRanks))) := by
  have hall : ∀ k, n < k → ((List.range k).foldl (c.forwardFrom rank x.tmpNumSendBlocksBuffH)
      ⟨fun _ => 0, fun _ => 0, fun _ => 0⟩).numForwardBlocksH
        (c.localRankToRank (c.localRank rank) n) = x.tmpNumSendBlocksBuffH (n * c.countPerRank +
          (c.node rank * c.countPerNode + (c.nLocalBuckets + c.nLocalRanks))) := by
    intro k
    induction k with
    | zero => exact fun hk => absurd hk (Nat.not_lt_zero n)
    | succ k ih =>
      intro hk
      rw [List.range_succ, List.foldl_append, List.foldl_cons, List.foldl_nil,
        forwardFrom_apply _ _ hne]
      split
      · rename_i heq
        rw [heq]
      · exact ih (by omega)
  exact hall c.nNodes hn

/-! ### Masks that are remainders -/

structure Masks (c : PrepareConfig) : Prop where
  buckets : ∃ k, c.numRecvBuckets = 2 ^ k
  ranks : ∃ k, c.nLocalRanks = 2 ^ k
  localBuckets : ∃ k, c.nLocalBuckets = 2 ^ k

theorem masks_of_pow (h : ∃ k, c.nLocalBuckets = 2 ^ k) : Masks c := by
  rcases h with ⟨k, hk⟩
  constructor
  · rcases (Nat.dvd_prime_pow Nat.prime_two).mp (Dvd.intro c.nLocalRanks hk) with ⟨i, _, hi⟩
    exact ⟨i, hi⟩
  · rcases (Nat.dvd_prime_pow Nat.prime_two).mp (Dvd.intro_left c.numRecvBuckets hk) with ⟨i, _, hi⟩
    exact ⟨i, hi⟩
  · exact ⟨k, hk⟩

theorem nRanks_buckets : c.nNodes * c.nLocalBuckets = c.nRanks * c.numRecvBuckets := by
  unfold nLocalBuckets nRanks
  rw [Nat.mul_comm c.numRecvBuckets, Nat.mul_assoc]

theorem localBucket_lt {i k : ℕ} (hi : i < c.nLocalRanks) (hk : k < c.numRecvBuckets) :
    i * c.numRecvBuckets + k < c.nLocalBuckets := by
  rw [nLocalBuckets, Nat.mul_comm c.numRecvBuckets]
  exact cell_lt hi hk

/-- A place that some rank counts its blocks for a bucket of a rank at. -/
def countPlace (c : PrepareConfig) (r d j : ℕ) : ℕ × ℕ :=
  (c.localRankToRank (c.localRank r) (c.node d),
    c.node r * c.countPerRank + (c.node d * c.countPerNode + j))

variable {x i : ℕ}

theorem mem_gathers_bucket :
    Gather.bucket x i ∈ c.gathers ↔ x < c.nRanks ∧ i < c.nNodes * c.nLocalBuckets := by
  simp [gathers]

theorem mem_gathers_rank : Gather.rank x i ∈ c.gathers ↔ x < c.nRanks ∧ i < c.nRanks := by
  simp [gathers]

theorem gatherSource_bucket (hmasks : Masks c) {r d k x i : ℕ} (hk : k < c.numRecvBuckets)
    (htarget : c.gatherTarget (.bucket x i) = (d, r * c.numRecvBuckets + k)) :
    c.gatherSource (.bucket x i) =
      c.countPlace r d (c.localRank d * c.numRecvBuckets + k) := by
  simp only [gatherTarget, gatherSource, slot_eq_mod hmasks.buckets,
    slot_eq_mod hmasks.localBuckets, Prod.mk.injEq] at htarget ⊢
  have hi := Nat.mod_lt i c.numRecvBuckets_pos
  have hlocal : c.bucketToRank (i % c.nLocalBuckets) < c.nLocalRanks :=
    bucketToRank_lt (Nat.mod_lt _ nLocalBuckets_pos)
  rcases htarget with ⟨hd, hpair⟩
  rcases (cell_inj hi hk).mp hpair with ⟨hr, hbucket⟩
  rcases (localRankToRank_eq_iff hlocal).mp hd with ⟨hnode, hrank⟩
  rcases (localRankToRank_eq_iff (localRank_lt x)).mp hr with ⟨hfrom, hrail⟩
  have hsplit : i % c.nLocalBuckets = c.localRank d * c.numRecvBuckets + k := by
    rw [← hrank, ← hbucket, ← Nat.mod_mod_of_dvd i (Dvd.intro _ rfl : c.numRecvBuckets ∣
      c.nLocalBuckets)]
    exact (Nat.div_add_mod' _ _).symm
  unfold countPlace
  rw [hsplit, ← hfrom, ← hrail, ← hnode, localRankToRank_self, Nat.mul_assoc]
  rfl

theorem gatherSource_rank (hmasks : Masks c) {r d x i : ℕ}
    (htarget : c.gatherTarget (.rank x i) = (d, c.nNodes * c.nLocalBuckets + r)) :
    c.gatherSource (.rank x i) = c.countPlace r d (c.nLocalBuckets + c.localRank d) := by
  simp only [gatherTarget, gatherSource, slot_eq_mod hmasks.ranks, Prod.mk.injEq,
    Nat.add_left_cancel_iff] at htarget ⊢
  rcases htarget with ⟨hd, hr⟩
  rcases (localRankToRank_eq_iff (Nat.mod_lt i c.nLocalRanks_pos)).mp hd with ⟨hnode, hrank⟩
  rcases (localRankToRank_eq_iff (localRank_lt x)).mp hr with ⟨hfrom, hrail⟩
  unfold countPlace
  rw [hrank, ← hfrom, ← hrail, ← hnode, localRankToRank_self, Nat.mul_assoc,
    Nat.add_assoc (c.node x * _)]
  rfl

variable {r d k : ℕ}

theorem exists_gather_bucket (hmasks : Masks c) (hr : r < c.nRanks)
    (hd : d < c.nRanks) (hk : k < c.numRecvBuckets) :
    ∃ g ∈ c.gathers, c.gatherTarget g = (d, r * c.numRecvBuckets + k) := by
  have hbucket := localBucket_lt (localRank_lt (c := c) d) hk
  refine ⟨.bucket (c.localRankToRank (c.localRank r) (c.node d))
    (c.node r * c.nLocalBuckets + (c.localRank d * c.numRecvBuckets + k)),
    mem_gathers_bucket.mpr ⟨localRankToRank_lt (localRank_lt r) (node_lt hd),
      cell_lt (node_lt hr) hbucket⟩, ?_⟩
  have hmod : (c.node r * c.nLocalBuckets + (c.localRank d * c.numRecvBuckets + k)) %
      c.numRecvBuckets = k := by
    rw [← Nat.mod_mod_of_dvd _ (Dvd.intro _ rfl : c.numRecvBuckets ∣ c.nLocalBuckets),
      cell_mod hbucket, cell_mod hk]
  have hto : c.bucketToRank (c.localRank d * c.numRecvBuckets + k) = c.localRank d := cell_div hk
  simp only [gatherTarget, slot_eq_mod hmasks.buckets, slot_eq_mod hmasks.localBuckets,
    cell_div hbucket, cell_mod hbucket, hmod, hto, localRank_localRankToRank (localRank_lt r),
    node_localRankToRank (localRank_lt r), localRankToRank_self]

theorem exists_gather_rank (hmasks : Masks c) {r d : ℕ} (hr : r < c.nRanks) (hd : d < c.nRanks) :
    ∃ g ∈ c.gathers, c.gatherTarget g = (d, c.nNodes * c.nLocalBuckets + r) := by
  have hlocal := localRank_lt (c := c) d
  refine ⟨.rank (c.localRankToRank (c.localRank r) (c.node d))
    (c.localRankToRank (c.localRank d) (c.node r)),
    mem_gathers_rank.mpr ⟨localRankToRank_lt (localRank_lt r) (node_lt hd),
      localRankToRank_lt hlocal (node_lt hr)⟩, ?_⟩
  have hdiv : c.localRankToRank (c.localRank d) (c.node r) / c.nLocalRanks = c.node r :=
    cell_div hlocal
  have hmod : c.localRankToRank (c.localRank d) (c.node r) % c.nLocalRanks = c.localRank d :=
    cell_mod hlocal
  simp only [gatherTarget, slot_eq_mod hmasks.ranks, hdiv, hmod,
    localRank_localRankToRank (localRank_lt r), node_localRankToRank (localRank_lt r),
    localRankToRank_self]

theorem gatherTarget_lt (hi : i < c.nNodes * c.nLocalBuckets) :
    (c.gatherTarget (.bucket x i)).2 < c.nNodes * c.nLocalBuckets := by
  have hnode : i / c.nLocalBuckets < c.nNodes := Nat.div_lt_of_lt_mul (by rwa [Nat.mul_comm])
  have hmask : i &&& (c.numRecvBuckets - 1) < c.numRecvBuckets :=
    slot_lt c.numRecvBuckets_pos i
  rw [nRanks_buckets]
  exact cell_lt (localRankToRank_lt (localRank_lt x) hnode) hmask

/-! ### After all rounds -/

variable {l : List Gather} {s : ℕ → PrepareRank}

theorem gathered_bucket (hmasks : Masks c) (hl : ∀ g, g ∈ l ↔ g ∈ c.gathers)
    (hr : r < c.nRanks) (hd : d < c.nRanks) (hk : k < c.numRecvBuckets) :
    (c.gatherNumRecvCounts l s d).tmpNumRecvBlocksBuff (r * c.numRecvBuckets + k) =
      (s (c.localRankToRank (c.localRank r) (c.node d))).tmpNumSendBlocksBuffH
        (c.node r * c.countPerRank + (c.node d * c.countPerNode +
          (c.localRank d * c.numRecvBuckets + k))) := by
  change scatter c.gatherTarget _ l _ (d, r * c.numRecvBuckets + k) = _
  apply scatter_of_forall
  · intro g hg htarget
    cases g with
    | bucket x i =>
      simp only [gatherSource_bucket hmasks hk htarget]
      rfl
    | rank x i =>
      have hplace : c.nNodes * c.nLocalBuckets + _ = r * c.numRecvBuckets + k :=
        congrArg Prod.snd htarget
      have hlt : r * c.numRecvBuckets + k < c.nRanks * c.numRecvBuckets := cell_lt hr hk
      rw [nRanks_buckets] at hplace
      omega
  · right
    rcases exists_gather_bucket hmasks hr hd hk with ⟨g, hg, htarget⟩
    exact ⟨g, (hl g).mpr hg, htarget⟩

theorem gathered_rank (hmasks : Masks c) (hl : ∀ g, g ∈ l ↔ g ∈ c.gathers) {r d : ℕ}
    (hr : r < c.nRanks) (hd : d < c.nRanks) :
    (c.gatherNumRecvCounts l s d).tmpNumRecvBlocksBuff (c.nNodes * c.nLocalBuckets + r) =
      (s (c.localRankToRank (c.localRank r) (c.node d))).tmpNumSendBlocksBuffH
        (c.node r * c.countPerRank + (c.node d * c.countPerNode +
          (c.nLocalBuckets + c.localRank d))) := by
  change scatter c.gatherTarget _ l _ (d, c.nNodes * c.nLocalBuckets + r) = _
  apply scatter_of_forall
  · intro g hg htarget
    cases g with
    | bucket x i =>
      have hlt := gatherTarget_lt (mem_gathers_bucket.mp ((hl _).mp hg)).2 (x := x)
      rw [htarget] at hlt
      simp only at hlt
      omega
    | rank x i =>
      simp only [gatherSource_rank hmasks htarget]
      rfl
  · right
    rcases exists_gather_rank hmasks hr hd with ⟨g, hg, htarget⟩
    exact ⟨g, (hl g).mpr hg, htarget⟩

/-! ### A place that no round stores to -/

theorem bucketToRank_mask (hpow : ∃ k, c.numRecvBuckets = 2 ^ k) (i : ℕ) :
    c.bucketToRank (i &&& (c.nLocalBuckets - 1)) =
      c.bucketToRank i &&& (c.nLocalRanks - 1) := by
  rcases hpow with ⟨k, hk⟩
  have hdiv : (c.nLocalBuckets - 1) / 2 ^ k = c.nLocalRanks - 1 := by
    have hpos := c.nLocalRanks_pos
    have hone := c.numRecvBuckets_pos
    have hsplit : c.nLocalBuckets - 1 =
        (c.nLocalRanks - 1) * c.numRecvBuckets + (c.numRecvBuckets - 1) := by
      have hmul : c.nLocalBuckets = (c.nLocalRanks - 1 + 1) * c.numRecvBuckets := by
        rw [Nat.sub_add_cancel hpos, nLocalBuckets, Nat.mul_comm]
      rw [hmul, Nat.succ_mul]
      omega
    rw [hsplit, ← hk]
    exact cell_div (by omega)
  unfold bucketToRank
  rw [hk, Nat.and_div_two_pow, hdiv]

theorem exists_missed (h : ¬ ∃ k, c.nLocalBuckets = 2 ^ k) :
    ∃ d < c.nRanks, ∃ k < c.numRecvBuckets, ∀ g ∈ c.gathers, c.gatherTarget g ≠ (d, k) := by
  have hbehind : ∀ x i d k, k < c.numRecvBuckets → c.gatherTarget (.rank x i) ≠ (d, k) := by
    intro x i d k hk htarget
    have hplace : c.nNodes * c.nLocalBuckets + _ = k := congrArg Prod.snd htarget
    have hle : 1 * c.numRecvBuckets ≤ c.nNodes * c.nLocalBuckets :=
      Nat.mul_le_mul c.nNodes_pos (Nat.le_mul_of_pos_right _ c.nLocalRanks_pos)
    omega
  by_cases hbuckets : ∃ k, c.numRecvBuckets = 2 ^ k
  · have hranks : ¬ ∃ k, c.nLocalRanks = 2 ^ k := by
      rintro ⟨j, hj⟩
      rcases hbuckets with ⟨k, hk⟩
      exact h ⟨k + j, by rw [nLocalBuckets, hk, hj, Nat.pow_add]⟩
    rcases exists_unused_slot c.nLocalRanks_pos hranks with ⟨slot, hslot, hunused⟩
    refine ⟨slot, hslot.trans_le (Nat.le_mul_of_pos_left _ c.nNodes_pos), 0,
      c.numRecvBuckets_pos, ?_⟩
    intro g _ htarget
    cases g with
    | bucket x i =>
      have hd : c.localRankToRank _ (c.node x) = slot := congrArg Prod.fst htarget
      rw [bucketToRank_mask hbuckets] at hd
      have hmask : c.bucketToRank i &&& (c.nLocalRanks - 1) < c.nLocalRanks :=
        slot_lt c.nLocalRanks_pos _
      have hlocal := ((localRankToRank_eq_iff hmask).mp hd).2
      rw [localRank, Nat.mod_eq_of_lt hslot] at hlocal
      exact hunused _ hlocal
    | rank x i => exact hbehind x i slot 0 c.numRecvBuckets_pos htarget
  · rcases exists_unused_slot c.numRecvBuckets_pos hbuckets with ⟨slot, hslot, hunused⟩
    refine ⟨0, Nat.mul_pos c.nNodes_pos c.nLocalRanks_pos, slot, hslot, ?_⟩
    intro g _ htarget
    cases g with
    | bucket x i =>
      have hplace : _ * c.numRecvBuckets + (i &&& (c.numRecvBuckets - 1)) = slot :=
        congrArg Prod.snd htarget
      have hmask : i &&& (c.numRecvBuckets - 1) < c.numRecvBuckets :=
        slot_lt c.numRecvBuckets_pos i
      apply hunused i
      have hmod := congrArg (· % c.numRecvBuckets) hplace
      simp only [cell_mod hmask, Nat.mod_eq_of_lt hslot] at hmod
      exact hmod
    | rank x i => exact hbehind x i 0 slot hslot htarget

end PrepareConfig
end TorchComms.AllToAllvDedup
