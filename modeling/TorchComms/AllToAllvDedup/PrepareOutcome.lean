import TorchComms.AllToAllvDedup.PrepareGather
import TorchComms.Foundation.Range

/-! # When the counts are the true ones

What `prepare` returns on every rank counts the blocks, exactly where the number of the buckets of a
node is a power of two and no block lists a bucket twice.
-/
namespace TorchComms.AllToAllvDedup

open Foundation

namespace PrepareConfig

variable {c : PrepareConfig}

/-! ### Offsets -/

/-- The pairs in the order in which they are laid out. -/
def pairs (c : PrepareConfig) : List ℕ :=
  (List.range c.numRecvBuckets).flatMap fun bucket => (List.range c.nLocalRanks).flatMap
    fun localRank => (List.range c.nNodes).map fun node =>
      (node * c.nLocalRanks + localRank) * c.numRecvBuckets + bucket

theorem mem_pairs {i : ℕ} : i ∈ c.pairs ↔ i < c.nRanks * c.numRecvBuckets := by
  unfold pairs
  simp only [List.mem_flatMap, List.mem_map, List.mem_range]
  constructor
  · rintro ⟨k, hk, i, hi, n, hn, rfl⟩
    exact cell_lt (localRankToRank_lt hi hn) hk
  · intro hi
    have hrank : i / c.numRecvBuckets < c.nRanks :=
      Nat.div_lt_of_lt_mul (by rwa [Nat.mul_comm])
    refine ⟨i % c.numRecvBuckets, Nat.mod_lt _ c.numRecvBuckets_pos,
      c.localRank (i / c.numRecvBuckets), localRank_lt _, c.node (i / c.numRecvBuckets),
      node_lt hrank, ?_⟩
    have hself : c.node (i / c.numRecvBuckets) * c.nLocalRanks +
        c.localRank (i / c.numRecvBuckets) = i / c.numRecvBuckets := localRankToRank_self _
    rw [hself, Nat.div_add_mod']

theorem pairs_nodup : c.pairs.Nodup := by
  unfold pairs
  rw [List.nodup_flatMap]
  constructor
  · intro k hk
    rw [List.nodup_flatMap]
    have hbucket := List.mem_range.mp hk
    constructor
    · intro i hi
      apply List.nodup_range.map
      intro n n' heq
      have hrank := ((cell_inj hbucket hbucket).mp heq).1
      have hlocal := List.mem_range.mp hi
      exact ((cell_inj hlocal hlocal).mp hrank).1
    · refine (List.nodup_range (n := c.nLocalRanks)).imp_of_mem ?_
      intro i i' hi hi' hne a ha ha'
      rcases List.mem_map.mp ha with ⟨n, _, rfl⟩
      rcases List.mem_map.mp ha' with ⟨n', _, heq⟩
      have hrank := ((cell_inj hbucket hbucket).mp heq).1
      exact hne ((cell_inj (List.mem_range.mp hi') (List.mem_range.mp hi)).mp hrank).2.symm
  · refine (List.nodup_range (n := c.numRecvBuckets)).imp_of_mem ?_
    intro k k' hk hk' hne a ha ha'
    simp only [List.mem_flatMap, List.mem_map] at ha ha'
    rcases ha with ⟨i, _, n, _, rfl⟩
    rcases ha' with ⟨i', _, n', _, heq⟩
    exact hne ((cell_inj (List.mem_range.mp hk') (List.mem_range.mp hk)).mp heq).2.symm

theorem offsets_eq (x : PrepareRank) :
    ((c.computeOffsetsFromCounts x).recvOffsets, (c.computeOffsetsFromCounts x).totalNumRecvBlocks) =
      layOut c.blockCount x.tmpNumRecvBlocksBuff c.pairs (x.recvOffsets, 0) := by
  unfold computeOffsetsFromCounts layOut pairs
  simp only [List.foldl_flatMap, List.foldl_map]

theorem offsets_apart (x : PrepareRank) {i j : ℕ} (hi : i < c.nRanks * c.numRecvBuckets)
    (hj : j < c.nRanks * c.numRecvBuckets) (hne : i ≠ j) :
    Range.Apart ⟨(c.computeOffsetsFromCounts x).recvOffsets i,
        x.tmpNumRecvBlocksBuff i * c.blockCount⟩
      ⟨(c.computeOffsetsFromCounts x).recvOffsets j, x.tmpNumRecvBlocksBuff j * c.blockCount⟩ := by
  have heq := congrArg Prod.fst (offsets_eq (c := c) x)
  simp only at heq
  have hapart := layOut_apart c.blockCount x.tmpNumRecvBlocksBuff (x.recvOffsets, 0) pairs_nodup
    (mem_pairs.mpr hi) (mem_pairs.mpr hj) hne
  rw [← heq] at hapart
  exact Or.inr (Or.inr hapart)

theorem offsets_inside (x : PrepareRank) {i : ℕ} (hi : i < c.nRanks * c.numRecvBuckets) :
    (c.computeOffsetsFromCounts x).recvOffsets i + x.tmpNumRecvBlocksBuff i * c.blockCount ≤
      (c.computeOffsetsFromCounts x).totalNumRecvBlocks * c.blockCount := by
  have hin := (layOut_mem c.blockCount x.tmpNumRecvBlocksBuff (x.recvOffsets, 0) pairs_nodup
    (mem_pairs.mpr hi)).2
  rwa [← offsets_eq] at hin

/-! ### What is counted -/

/-- No block lists a bucket twice. -/
def Distinct (c : PrepareConfig) (d : Batch c) : Prop :=
  ∀ r < c.nRanks, ∀ b < c.totalNumSendBlocks, (c.blockBuckets (d.blockRecvBuckets r) b).Nodup

instance (c : PrepareConfig) (d : Batch c) : Decidable (Distinct c d) :=
  inferInstanceAs (Decidable (∀ r < c.nRanks, ∀ b < c.totalNumSendBlocks, List.Nodup _))

theorem numBlocks_eq_sum (blocks : ℕ → ℕ) (p : ℕ → Prop) [DecidablePred p] :
    c.numBlocks blocks p = ∑ b ∈ Finset.range c.totalNumSendBlocks,
      if ∃ x ∈ c.blockBuckets blocks b, p x then 1 else 0 := Finset.card_filter ..

theorem exists_iff_countP_pos (l : List ℕ) (p : ℕ → Prop) [DecidablePred p] :
    (∃ x ∈ l, p x) ↔ 0 < l.countP fun x => p x := by
  simp [List.countP_pos_iff]

theorem numListings_eq_iff (blocks : ℕ → ℕ) (x : ℕ) :
    c.numListings blocks (· = x) = c.numBlocks blocks (· = x) ↔
      ∀ b < c.totalNumSendBlocks, (c.blockBuckets blocks b).count x ≤ 1 := by
  have hcount : ∀ b, (c.blockBuckets blocks b).countP (fun y => y = x) =
      (c.blockBuckets blocks b).count x := by
    intro b
    rw [List.count_eq_countP]
    rfl
  have hterm : ∀ b, (if ∃ y ∈ c.blockBuckets blocks b, y = x then 1 else 0) =
      min 1 ((c.blockBuckets blocks b).count x) := by
    intro b
    rw [if_congr (exists_iff_countP_pos _ (· = x)) rfl rfl, hcount]
    split <;> omega
  rw [numBlocks_eq_sum, eq_comm, numListings]
  simp only [hterm, hcount]
  rw [Finset.sum_eq_sum_iff_of_le fun b _ => Nat.min_le_right 1 _]
  simp only [Finset.mem_range]
  refine forall₂_congr fun b _ => ?_
  omega

theorem bucket_iff (hmasks : Masks c) {d k : ℕ} (hk : k < c.numRecvBuckets) (x : ℕ) :
    c.bucketNode x = c.node d ∧ c.maskedBucket x = c.localRank d * c.numRecvBuckets + k ↔
      x = d * c.numRecvBuckets + k := by
  have hlt := localBucket_lt (localRank_lt (c := c) d) hk
  have hnode : c.bucketNode x = x / c.nLocalBuckets := Nat.div_div_eq_div_mul ..
  have hx : x = x / c.nLocalBuckets * c.nLocalBuckets + x % c.nLocalBuckets :=
    (Nat.div_add_mod' ..).symm
  have hd : d * c.numRecvBuckets + k =
      c.node d * c.nLocalBuckets + (c.localRank d * c.numRecvBuckets + k) := by
    conv_lhs => rw [← localRankToRank_self (c := c) d]
    rw [localRankToRank, Nat.add_mul, nLocalBuckets, Nat.mul_comm c.numRecvBuckets, Nat.mul_assoc,
      Nat.add_assoc]
  conv_rhs => rw [hx, hd]
  rw [cell_inj (Nat.mod_lt _ nLocalBuckets_pos) hlt, hnode, maskedBucket,
    slot_eq_mod hmasks.localBuckets]

/-! ### On all ranks -/

/-- Everything counts blocks: what a rank receives, what it sends to a node and a rank as all of its
rail know it, and what it forwards. The steps of the two sides agree, and the received blocks have
ranges apart from each other. -/
structure TrueCounts (c : PrepareConfig) (d : Batch c) (s : ℕ → PrepareRank) : Prop where
  recv : ∀ r < c.nRanks, ∀ y < c.nRanks, ∀ k < c.numRecvBuckets,
    (s y).numRecvBlocks (r * c.numRecvBuckets + k) =
      c.numBlocks (d.blockRecvBuckets r) (· = y * c.numRecvBuckets + k)
  recvRank : ∀ r < c.nRanks, ∀ y < c.nRanks,
    (s y).tmpNumRecvBlocksBuff (c.nRanks * c.numRecvBuckets + r) =
      c.numBlocks (d.blockRecvBuckets r) (c.bucketToRank · = y)
  perRank : ∀ r < c.nRanks, ∀ y < c.nRanks, c.localRank r = c.localRank y →
    ∀ n < c.nNodes, ∀ i < c.nLocalRanks, (s y).tmpNumSendBlocksBuffH (c.node r * c.countPerRank +
      (n * c.countPerNode + (c.nLocalBuckets + i))) =
        c.numBlocks (d.blockRecvBuckets r) (c.bucketToRank · = c.localRankToRank i n)
  perNode : ∀ r < c.nRanks, ∀ y < c.nRanks, c.localRank r = c.localRank y →
    ∀ n < c.nNodes, (s y).tmpNumSendBlocksBuffH (c.node r * c.countPerRank +
      (n * c.countPerNode + (c.nLocalBuckets + c.nLocalRanks))) =
        c.numBlocks (d.blockRecvBuckets r) (c.bucketNode · = n)
  forward : ∀ r < c.nRanks, ∀ y < c.nRanks, c.localRank r = c.localRank y → c.node r ≠ c.node y →
    (s y).numForwardBlocks r = (s r).tmpNumSendBlocksBuffH (c.node r * c.countPerRank +
      (c.node y * c.countPerNode + (c.nLocalBuckets + c.nLocalRanks)))
  steps : ∀ r < c.nRanks, ∀ y < c.nRanks, c.localRank r = c.localRank y → ∀ m,
    c.numSendSteps m r (c.node y) (s r) = c.numFwdSteps m y (c.node r) (s y)
  apart : ∀ y < c.nRanks, ∀ i < c.nRanks * c.numRecvBuckets, ∀ j < c.nRanks * c.numRecvBuckets,
    i ≠ j → Range.Apart ⟨(s y).recvOffsets i, (s y).numRecvBlocks i * c.blockCount⟩
      ⟨(s y).recvOffsets j, (s y).numRecvBlocks j * c.blockCount⟩
  inside : ∀ y < c.nRanks, ∀ i < c.nRanks * c.numRecvBuckets,
    (s y).recvOffsets i + (s y).numRecvBlocks i * c.blockCount ≤
      (s y).totalNumRecvBlocks * c.blockCount

/-! ### What holds for all sizes -/

section AllSizes

variable (d : Batch c) (puts : List (ℕ × ℕ)) (gathers : List Gather) (s : ℕ → PrepareRank) {r y : ℕ}

theorem prepare_tallied (hputs : puts.Perm c.puts) (hr : r < c.nRanks) (hy : y < c.nRanks)
    (hrail : c.localRank r = c.localRank y) :
    Tallied c (c.node r * c.countPerRank) (d.blockRecvBuckets r) c.totalNumSendBlocks
      (c.prepare d puts gathers s y).tmpNumSendBlocksBuffH := by
  have harrived := arrived_foldl (c := c) (s := fun rank => c.computeNumSendBlocks rank
    (c.copyBlockRecvBuckets rank (d.blockRecvBuckets rank) (s rank))) puts
    (fun p hp => hputs.mem_iff.mp hp) (fun _ _ _ _ => rfl)
  exact (tallied_own r (d.blockRecvBuckets r) (s r)).of_blockIs
    (harrived.all (fun p hp => hputs.mem_iff.mpr hp) hr hy hrail)

theorem prepare_forward (hr : r < c.nRanks) (hrail : c.localRank r = c.localRank y)
    (hnode : c.node r ≠ c.node y) :
    (c.prepare d puts gathers s y).numForwardBlocks r =
      (c.prepare d puts gathers s y).tmpNumSendBlocksBuffH (c.node r * c.countPerRank +
        (c.node y * c.countPerNode + (c.nLocalBuckets + c.nLocalRanks))) := by
  have hself : r = c.localRankToRank (c.localRank y) (c.node r) := by
    rw [← hrail, localRankToRank_self]
  conv_lhs => rw [hself]
  exact numForwardBlocks_eq _ (node_lt hr) hnode

theorem prepare_recv {y i : ℕ} (hi : i < c.nRanks * c.numRecvBuckets) :
    (c.prepare d puts gathers s y).numRecvBlocks i =
      (c.prepare d puts gathers s y).tmpNumRecvBlocksBuff i := by
  refine (if_pos ?_).trans (congrArg _ (Nat.sub_zero i))
  omega

theorem prepare_steps (hputs : puts.Perm c.puts) (hr : r < c.nRanks) (hy : y < c.nRanks)
    (hrail : c.localRank r = c.localRank y) (m : ℕ) :
    c.numSendSteps m r (c.node y) (c.prepare d puts gathers s r) =
      c.numFwdSteps m y (c.node r) (c.prepare d puts gathers s y) := by
  have hsend := (prepare_tallied d puts gathers s hputs hr hr rfl).node _ (node_lt hy)
  have hknown := (prepare_tallied d puts gathers s hputs hr hy hrail).node _ (node_lt hy)
  have hplace : c.node r * c.nNodes * (c.nLocalBuckets + c.nLocalRanks + 1) +
      c.node y * (c.nLocalBuckets + c.nLocalRanks + 1) + c.nLocalBuckets + c.nLocalRanks =
        c.node r * c.countPerRank +
          (c.node y * c.countPerNode + (c.nLocalBuckets + c.nLocalRanks)) := by
    rw [Nat.mul_assoc, Nat.add_assoc, Nat.add_assoc]
    rfl
  unfold numSendSteps numFwdSteps
  simp only [hplace]
  by_cases hnode : c.node r = c.node y
  · rw [if_pos (Or.inr hnode.symm), if_pos hnode]
  · rw [if_neg hnode, ← hrail, localRankToRank_self, prepare_forward d puts gathers s hr hrail hnode, hknown,
      ← hsend]
    by_cases hzero : (c.prepare d puts gathers s r).tmpNumSendBlocksBuffH (c.node r *
        c.countPerRank + (c.node y * c.countPerNode + (c.nLocalBuckets + c.nLocalRanks))) = 0
    · rw [if_pos (Or.inl hzero), hzero]
      rcases Nat.eq_zero_or_pos m with rfl | hm
      · rfl
      · rw [Nat.zero_add, Nat.div_eq_of_lt (by omega)]
    · rw [if_neg (fun h => h.elim hzero (Ne.symm hnode))]

end AllSizes

/-! ### What holds with the right masks -/

section Masked

variable (d : Batch c) (puts : List (ℕ × ℕ)) (gathers : List Gather) (s : ℕ → PrepareRank)

theorem prepare_listings (hmasks : Masks c) (hputs : puts.Perm c.puts)
    (hgathers : gathers.Perm c.gathers) {r y k : ℕ} (hr : r < c.nRanks) (hy : y < c.nRanks)
    (hk : k < c.numRecvBuckets) :
    (c.prepare d puts gathers s y).numRecvBlocks (r * c.numRecvBuckets + k) =
      c.numListings (d.blockRecvBuckets r) (· = y * c.numRecvBuckets + k) := by
  have hlocal := localRank_lt (c := c) r
  have hx : c.localRankToRank (c.localRank r) (c.node y) < c.nRanks :=
    localRankToRank_lt hlocal (node_lt hy)
  rw [prepare_recv d puts gathers s (cell_lt hr hk)]
  refine (gathered_bucket hmasks (fun g => hgathers.mem_iff) hr hy hk).trans ?_
  refine ((prepare_tallied d puts gathers s hputs hr hx
    (localRank_localRankToRank hlocal).symm).bucket _ (node_lt hy) _
      (localBucket_lt (localRank_lt y) hk)).trans ?_
  simp only [bucket_iff hmasks hk]
  rfl

theorem prepare_recvRank (hmasks : Masks c) (hputs : puts.Perm c.puts)
    (hgathers : gathers.Perm c.gathers) {r y : ℕ} (hr : r < c.nRanks) (hy : y < c.nRanks) :
    (c.prepare d puts gathers s y).tmpNumRecvBlocksBuff (c.nRanks * c.numRecvBuckets + r) =
      c.numBlocks (d.blockRecvBuckets r) (c.bucketToRank · = y) := by
  have hlocal := localRank_lt (c := c) r
  have hx : c.localRankToRank (c.localRank r) (c.node y) < c.nRanks :=
    localRankToRank_lt hlocal (node_lt hy)
  rw [← nRanks_buckets]
  refine (gathered_rank hmasks (fun g => hgathers.mem_iff) hr hy).trans ?_
  refine ((prepare_tallied d puts gathers s hputs hr hx
    (localRank_localRankToRank hlocal).symm).rank _ (node_lt hy) _ (localRank_lt y)).trans ?_
  rw [localRankToRank_self]
  rfl

end Masked

theorem trueCounts_prepare (d : Batch c) (puts : List (ℕ × ℕ)) (gathers : List Gather)
    (s : ℕ → PrepareRank) (hmasks : Masks c) (hdistinct : Distinct c d) (hputs : puts.Perm c.puts)
    (hgathers : gathers.Perm c.gathers) : TrueCounts c d (c.prepare d puts gathers s) where
  recv := by
    intro r hr y hy k hk
    rw [prepare_listings d puts gathers s hmasks hputs hgathers hr hy hk, numListings_eq_iff]
    exact fun b hb => List.nodup_iff_count_le_one.mp (hdistinct r hr b hb) _
  recvRank := fun r hr y hy => prepare_recvRank d puts gathers s hmasks hputs hgathers hr hy
  perRank := fun r hr y hy hrail => (prepare_tallied d puts gathers s hputs hr hy hrail).rank
  perNode := fun r hr y hy hrail => (prepare_tallied d puts gathers s hputs hr hy hrail).node
  forward := by
    intro r hr y hy hrail hnode
    rw [prepare_forward d puts gathers s hr hrail hnode,
      (prepare_tallied d puts gathers s hputs hr hy hrail).node _ (node_lt hy),
      (prepare_tallied d puts gathers s hputs hr hr rfl).node _ (node_lt hy)]
  steps := fun r hr y hy hrail m => prepare_steps d puts gathers s hputs hr hy hrail m
  apart := by
    intro y hy i hi j hj hne
    rw [prepare_recv d puts gathers s hi, prepare_recv d puts gathers s hj]
    exact offsets_apart _ hi hj hne
  inside := by
    intro y hy i hi
    rw [prepare_recv d puts gathers s hi]
    exact offsets_inside _ hi

/-! ### What fails without -/

theorem foldl_iput_recv (l : List (ℕ × ℕ)) (s : ℕ → PrepareRank) (y : ℕ) :
    (l.foldl c.iput s y).tmpNumRecvBlocksBuff = (s y).tmpNumRecvBlocksBuff := by
  induction l generalizing s with
  | nil => rfl
  | cons p l ih =>
    rw [List.foldl_cons, ih]
    simp only [iput, Function.update_apply]
    split
    · rename_i hy
      rw [hy]
    · rfl

theorem prepare_missed (d : Batch c) (puts : List (ℕ × ℕ)) (gathers : List Gather)
    (s : ℕ → PrepareRank) {y i : ℕ} (hi : i < c.nRanks * c.numRecvBuckets)
    (hmissed : ∀ g ∈ gathers, c.gatherTarget g ≠ (y, i)) :
    (c.prepare d puts gathers s y).numRecvBlocks i = (s y).tmpNumRecvBlocksBuff i := by
  rw [prepare_recv d puts gathers s hi]
  refine (scatter_of_not_mem hmissed).trans ?_
  exact congrFun (foldl_iput_recv puts _ y) i

def emptyRank (n : ℕ) : PrepareRank where
  blockRecvBucketsH := fun _ => 0
  tmpNumSendBlocksBuffH := fun _ => 0
  tmpNumRecvBlocksBuff := fun _ => n
  xnodeInputSplits := fun _ => 0
  xnodeOutputSplits := fun _ => 0
  localInputSplits := fun _ => 0
  numForwardBlocks := fun _ => 0
  numRecvBlocks := fun _ => 0
  recvOffsets := fun _ => 0
  totalNumRecvBlocks := 0

theorem exists_not_trueCounts (d : Batch c) (h : ¬ ∃ k, c.nLocalBuckets = 2 ^ k) :
    ∃ s, ¬ TrueCounts c d (c.prepare d c.puts c.gathers s) := by
  rcases exists_missed h with ⟨y, hy, k, hk, hmissed⟩
  have hranks : 0 < c.nRanks := Nat.mul_pos c.nNodes_pos c.nLocalRanks_pos
  have hplace : 0 * c.numRecvBuckets + k = k := by omega
  refine ⟨fun _ => emptyRank
    (c.numBlocks (d.blockRecvBuckets 0) (· = y * c.numRecvBuckets + k) + 1), fun hs => ?_⟩
  have hcount := hs.recv 0 hranks y hy k hk
  rw [hplace, prepare_missed d _ _ _ (hplace ▸ cell_lt hranks hk) hmissed] at hcount
  exact absurd hcount (Nat.succ_ne_self _)

theorem mem_blockBuckets_lt (d : Batch c) {r b x : ℕ} (hr : r < c.nRanks)
    (hb : b < c.totalNumSendBlocks) (hx : x ∈ c.blockBuckets (d.blockRecvBuckets r) b) :
    x < c.nRanks * c.numRecvBuckets := by
  rcases List.mem_map.mp hx with ⟨i, hi, rfl⟩
  exact d.lt r hr _ (listed_lt hb (List.mem_range.mp hi))

/-- The counts are the true ones, whatever the buffers held and whatever the order of the puts and of
the threads, exactly where the masks are remainders and no block lists a bucket twice. -/
theorem trueCounts_iff (d : Batch c) :
    (∀ puts gathers s, puts.Perm c.puts → gathers.Perm c.gathers →
      TrueCounts c d (c.prepare d puts gathers s)) ↔
      (∃ k, c.numRecvBuckets * c.nLocalRanks = 2 ^ k) ∧ Distinct c d := by
  constructor
  · intro hall
    have hpow : ∃ k, c.nLocalBuckets = 2 ^ k := by
      by_contra hnot
      rcases exists_not_trueCounts d hnot with ⟨s, hs⟩
      exact hs (hall _ _ s (List.Perm.refl _) (List.Perm.refl _))
    refine ⟨hpow, fun r hr b hb => List.nodup_iff_count_le_one.mpr fun x => ?_⟩
    by_cases hx : x ∈ c.blockBuckets (d.blockRecvBuckets r) b
    · have hlt := mem_blockBuckets_lt d hr hb hx
      have hy : x / c.numRecvBuckets < c.nRanks :=
        Nat.div_lt_of_lt_mul (by rwa [Nat.mul_comm])
      have hk := Nat.mod_lt x c.numRecvBuckets_pos
      have htrue := (hall c.puts c.gathers (fun _ => emptyRank 0) (List.Perm.refl _)
        (List.Perm.refl _)).recv r hr _ hy _ hk
      rw [prepare_listings d _ _ _ (masks_of_pow hpow) (List.Perm.refl _) (List.Perm.refl _) hr hy
        hk, Nat.div_add_mod', numListings_eq_iff] at htrue
      exact htrue b hb
    · rw [List.count_eq_zero_of_not_mem hx]
      exact Nat.zero_le 1
  · rintro ⟨hpow, hdistinct⟩ puts gathers s hputs hgathers
    exact trueCounts_prepare d puts gathers s (masks_of_pow hpow) hdistinct hputs hgathers

/-- One rank with three buckets, and one block for the second of them. -/
def threeBuckets : PrepareConfig where
  nNodes := 1
  nLocalRanks := 1
  totalNumSendBlocks := 1
  blockCount := 1
  blockNumRecvBuckets := 1
  numRecvBuckets := 3
  nNodes_pos := Nat.one_pos
  nLocalRanks_pos := Nat.one_pos
  numRecvBuckets_pos := by decide
  numRecvBuckets_le := by decide

theorem not_trueCounts_threeBuckets :
    ¬ ∀ (c : PrepareConfig) (d : Batch c) (puts : List (ℕ × ℕ)) (gathers : List Gather)
      (s : ℕ → PrepareRank), puts.Perm c.puts → gathers.Perm c.gathers → Distinct c d →
        TrueCounts c d (c.prepare d puts gathers s) := by
  intro hall
  have htrue := hall threeBuckets ⟨fun _ _ => 1, fun _ _ _ _ => by decide⟩ _ _
    (fun _ => emptyRank 0) (List.Perm.refl _) (List.Perm.refl _) (by decide)
  exact absurd (htrue.recv 0 (by decide) 0 (by decide) 1 (by decide)) (by decide)

end PrepareConfig
end TorchComms.AllToAllvDedup
