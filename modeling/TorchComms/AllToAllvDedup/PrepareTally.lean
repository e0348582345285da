import TorchComms.AllToAllvDedup.Prepare
import TorchComms.Foundation.RingSlot

/-! # What the counts of the own blocks are

Whatever the sizes, the entries of the nodes and of the ranks count every block once. An entry of a
bucket counts the buckets of all blocks that the mask takes to it, a bucket as often as a block lists
it.
-/
namespace TorchComms.AllToAllvDedup

open Foundation

namespace PrepareConfig

variable (c : PrepareConfig)

/-- The buckets of a block. -/
def blockBuckets (blockRecvBuckets : ℕ → ℕ) (b : ℕ) : List ℕ :=
  (List.range c.blockNumRecvBuckets).map fun r => blockRecvBuckets (b * c.blockNumRecvBuckets + r)

/-- The number of blocks that list a bucket of `p`. -/
def numBlocks (blockRecvBuckets : ℕ → ℕ) (p : ℕ → Prop) [DecidablePred p] : ℕ :=
  ((Finset.range c.totalNumSendBlocks).filter fun b =>
    ∃ x ∈ c.blockBuckets blockRecvBuckets b, p x).card

/-- The number of times that a bucket of `p` is listed. -/
def numListings (blockRecvBuckets : ℕ → ℕ) (p : ℕ → Prop) [DecidablePred p] : ℕ :=
  ∑ b ∈ Finset.range c.totalNumSendBlocks, (c.blockBuckets blockRecvBuckets b).countP fun x => p x

def bucketNode (x : ℕ) : ℕ := c.node (c.bucketToRank x)

def maskedBucket (x : ℕ) : ℕ := x &&& (c.nLocalBuckets - 1)

variable {c : PrepareConfig}

theorem nLocalBuckets_pos : 0 < c.nLocalBuckets :=
  Nat.mul_pos c.numRecvBuckets_pos c.nLocalRanks_pos

theorem maskedBucket_lt (x : ℕ) : c.maskedBucket x < c.nLocalBuckets :=
  slot_lt nLocalBuckets_pos x

theorem localRank_lt (r : ℕ) : c.localRank r < c.nLocalRanks := Nat.mod_lt _ c.nLocalRanks_pos

theorem localRankToRank_eq_iff {i n r : ℕ} (hi : i < c.nLocalRanks) :
    c.localRankToRank i n = r ↔ n = c.node r ∧ i = c.localRank r := by
  have hr : r = c.node r * c.nLocalRanks + c.localRank r := (Nat.div_add_mod' r _).symm
  conv_lhs => rw [hr]
  exact cell_inj hi (localRank_lt r)

/-! ### One block -/

theorem increment_apply (m : ℕ → ℕ) (i n a : ℕ) : increment m i n a = m a + if a = i then n else 0 := by
  unfold increment
  by_cases h : a = i
  · rw [h, Function.update_self, if_pos rfl]
  · rw [Function.update_of_ne h, if_neg h, Nat.add_zero]

theorem countOnce_fst (flags : ℕ → Bool) (k : ℕ) (m : ℕ → ℕ) (i a : ℕ) :
    (countOnce flags k m i).1 a = m a + if flags k = false ∧ a = i then 1 else 0 := by
  unfold countOnce
  cases hk : flags k
  · simp [increment_apply]
  · simp

theorem countOnce_snd (flags : ℕ → Bool) (k : ℕ) (m : ℕ → ℕ) (i n : ℕ) :
    (countOnce flags k m i).2 n = true ↔ flags n = true ∨ k = n := by
  unfold countOnce
  cases hk : flags k
  · by_cases hn : n = k
    · simp [hn]
    · simp [hn, Ne.symm hn]
  · simp only [if_true]
    exact ⟨Or.inl, fun h => h.elim id fun heq => heq ▸ hk⟩

theorem countBucket_toNode (base : ℕ) (s : BlockCount) (x n : ℕ) :
    (c.countBucket base s x).numSendBlocksToNode n = true ↔
      s.numSendBlocksToNode n = true ∨ c.bucketNode x = n := countOnce_snd ..

theorem countBucket_toRank (base : ℕ) (s : BlockCount) (x r : ℕ) :
    (c.countBucket base s x).numSendBlocksToRank r = true ↔
      s.numSendBlocksToRank r = true ∨ c.bucketToRank x = r := countOnce_snd ..

/-- The three entries that a bucket of a block adds to. -/
theorem countBucket_apply (base : ℕ) (s : BlockCount) (x a : ℕ) :
    (c.countBucket base s x).tmpNumSendBlocksBuffH a = s.tmpNumSendBlocksBuffH a +
      (if a = base + (c.bucketNode x * c.countPerNode + c.maskedBucket x) then 1 else 0) +
      (if s.numSendBlocksToNode (c.bucketNode x) = false ∧
        a = base + (c.bucketNode x * c.countPerNode + (c.nLocalBuckets + c.nLocalRanks))
        then 1 else 0) +
      (if s.numSendBlocksToRank (c.bucketToRank x) = false ∧
        a = base + (c.bucketNode x * c.countPerNode +
          (c.nLocalBuckets + c.localRank (c.bucketToRank x))) then 1 else 0) := by
  unfold countBucket
  simp only [countOnce_fst, increment_apply, bucketNode, maskedBucket, countPerNode, Nat.add_assoc]

theorem entry_inj {base n j n' j' : ℕ} (hj : j < c.countPerNode) (hj' : j' < c.countPerNode) :
    base + (n * c.countPerNode + j) = base + (n' * c.countPerNode + j') ↔ n = n' ∧ j = j' := by
  rw [Nat.add_left_cancel_iff]
  exact cell_inj hj hj'

theorem countBucket_entry (base : ℕ) (s : BlockCount) (x n : ℕ) {j : ℕ} (hj : j < c.countPerNode) :
    (c.countBucket base s x).tmpNumSendBlocksBuffH (base + (n * c.countPerNode + j)) =
      s.tmpNumSendBlocksBuffH (base + (n * c.countPerNode + j)) +
      (if n = c.bucketNode x ∧ j = c.maskedBucket x then 1 else 0) +
      (if s.numSendBlocksToNode (c.bucketNode x) = false ∧ n = c.bucketNode x ∧
        j = c.nLocalBuckets + c.nLocalRanks then 1 else 0) +
      (if s.numSendBlocksToRank (c.bucketToRank x) = false ∧ n = c.bucketNode x ∧
        j = c.nLocalBuckets + c.localRank (c.bucketToRank x) then 1 else 0) := by
  have hmasked := maskedBucket_lt (c := c) x
  have hlocal := localRank_lt (c := c) (c.bucketToRank x)
  have hwidth : c.countPerNode = c.nLocalBuckets + c.nLocalRanks + 1 := rfl
  have hbucket : c.maskedBucket x < c.countPerNode := by omega
  have hnode : c.nLocalBuckets + c.nLocalRanks < c.countPerNode := by omega
  have hrank : c.nLocalBuckets + c.localRank (c.bucketToRank x) < c.countPerNode := by omega
  rw [countBucket_apply]
  simp only [entry_inj hj hbucket, entry_inj hj hnode, entry_inj hj hrank]

/-- The loop has counted the buckets `l` of a block. -/
structure Counted (c : PrepareConfig) (base : ℕ) (m : ℕ → ℕ) (l : List ℕ) (s : BlockCount) :
    Prop where
  toNode : ∀ n, s.numSendBlocksToNode n = true ↔ ∃ x ∈ l, c.bucketNode x = n
  toRank : ∀ r, s.numSendBlocksToRank r = true ↔ ∃ x ∈ l, c.bucketToRank x = r
  bucket : ∀ n, ∀ j < c.nLocalBuckets,
    s.tmpNumSendBlocksBuffH (base + (n * c.countPerNode + j)) =
      m (base + (n * c.countPerNode + j)) +
        l.countP fun x => c.bucketNode x = n ∧ c.maskedBucket x = j
  rank : ∀ n, ∀ i < c.nLocalRanks,
    s.tmpNumSendBlocksBuffH (base + (n * c.countPerNode + (c.nLocalBuckets + i))) =
      m (base + (n * c.countPerNode + (c.nLocalBuckets + i))) +
        if ∃ x ∈ l, c.bucketToRank x = c.localRankToRank i n then 1 else 0
  node : ∀ n,
    s.tmpNumSendBlocksBuffH (base + (n * c.countPerNode + (c.nLocalBuckets + c.nLocalRanks))) =
      m (base + (n * c.countPerNode + (c.nLocalBuckets + c.nLocalRanks))) +
        if ∃ x ∈ l, c.bucketNode x = n then 1 else 0

theorem once_concat (p : ℕ → Prop) [DecidablePred p] (l : List ℕ) (x : ℕ) (q : Prop) [Decidable q]
    (hq : q ↔ ¬ (∃ y ∈ l, p y) ∧ p x) :
    (if ∃ y ∈ l, p y then 1 else 0) + (if q then 1 else 0) =
      if ∃ y ∈ l ++ [x], p y then 1 else 0 := by
  simp only [List.mem_append, List.mem_singleton, or_and_right, exists_or, exists_eq_left]
  by_cases hl : ∃ y ∈ l, p y
  · rw [if_pos hl, if_pos (Or.inl hl), if_neg (fun h => (hq.mp h).1 hl)]
  · by_cases hx : p x
    · rw [if_neg hl, if_pos (hq.mpr ⟨hl, hx⟩), if_pos (Or.inr hx)]
    · rw [if_neg hl, if_neg (fun h => hx (hq.mp h).2), if_neg (fun h => h.elim hl hx)]

theorem Counted.concat {base x : ℕ} {m : ℕ → ℕ} {l : List ℕ} {s : BlockCount}
    (h : Counted c base m l s) : Counted c base m (l ++ [x]) (c.countBucket base s x) := by
  have hmasked := maskedBucket_lt (c := c) x
  have hlocal := localRank_lt (c := c) (c.bucketToRank x)
  have hwidth : c.countPerNode = c.nLocalBuckets + c.nLocalRanks + 1 := rfl
  have hfresh : ∀ b : Bool, b = false ↔ ¬ b = true := by decide
  constructor
  · intro n
    rw [countBucket_toNode, h.toNode]
    simp [or_and_right, exists_or]
  · intro r
    rw [countBucket_toRank, h.toRank]
    simp [or_and_right, exists_or]
  · intro n j hj
    have hnode : j ≠ c.nLocalBuckets + c.nLocalRanks := by omega
    have hrank : j ≠ c.nLocalBuckets + c.localRank (c.bucketToRank x) := by omega
    rw [countBucket_entry base s x n (by omega), h.bucket n j hj, List.countP_append,
      List.countP_singleton]
    simp only [hnode, hrank, and_false, if_false, Nat.add_zero, decide_eq_true_eq, Nat.add_assoc,
      eq_comm (a := n), eq_comm (a := j)]
  · intro n i hi
    have hbucket : c.nLocalBuckets + i ≠ c.maskedBucket x := by omega
    have hnode : c.nLocalBuckets + i ≠ c.nLocalBuckets + c.nLocalRanks := by omega
    rw [countBucket_entry base s x n (by omega), h.rank n i hi, ← once_concat (fun y =>
      c.bucketToRank y = c.localRankToRank i n) l x (s.numSendBlocksToRank (c.bucketToRank x) =
        false ∧ n = c.bucketNode x ∧
        c.nLocalBuckets + i = c.nLocalBuckets + c.localRank (c.bucketToRank x))]
    · simp only [hbucket, hnode, and_false, if_false, Nat.add_zero, Nat.add_assoc]
    · rw [hfresh, h.toRank, Nat.add_left_cancel_iff, eq_comm (a := c.bucketToRank x),
        localRankToRank_eq_iff hi]
      refine and_congr_left fun heq => ?_
      rw [(localRankToRank_eq_iff hi).mpr heq]
  · intro n
    have hbucket : c.nLocalBuckets + c.nLocalRanks ≠ c.maskedBucket x := by omega
    have hrank : c.nLocalBuckets + c.nLocalRanks ≠
        c.nLocalBuckets + c.localRank (c.bucketToRank x) := by omega
    rw [countBucket_entry base s x n (by omega), h.node n, ← once_concat (fun y =>
      c.bucketNode y = n) l x (s.numSendBlocksToNode (c.bucketNode x) = false ∧
        n = c.bucketNode x ∧
        c.nLocalBuckets + c.nLocalRanks = c.nLocalBuckets + c.nLocalRanks)]
    · simp only [hbucket, hrank, and_false, if_false, Nat.add_zero, Nat.add_assoc]
    · rw [hfresh, h.toNode, eq_self, and_true, eq_comm (a := n)]
      refine and_congr_left fun heq => ?_
      rw [heq]

theorem counted_foldl (base : ℕ) (m : ℕ → ℕ) (l : List ℕ) :
    Counted c base m l (l.foldl (c.countBucket base) ⟨m, fun _ => false, fun _ => false⟩) := by
  induction l using List.reverseRecOn with
  | nil =>
    constructor
    · intro n
      simp
    · intro r
      simp
    · intro n j _
      simp
    · intro n i _
      simp
    · intro n
      simp
  | append_singleton l x ih =>
    rw [List.foldl_append]
    exact ih.concat

/-! ### All blocks -/

/-- The entries that the first `k` blocks leave at `base`, with nothing there before. -/
structure Tallied (c : PrepareConfig) (base : ℕ) (blocks : ℕ → ℕ) (k : ℕ) (m : ℕ → ℕ) : Prop where
  bucket : ∀ n < c.nNodes, ∀ j < c.nLocalBuckets, m (base + (n * c.countPerNode + j)) =
    ∑ b ∈ Finset.range k, (c.blockBuckets blocks b).countP fun x =>
      c.bucketNode x = n ∧ c.maskedBucket x = j
  rank : ∀ n < c.nNodes, ∀ i < c.nLocalRanks,
    m (base + (n * c.countPerNode + (c.nLocalBuckets + i))) = ((Finset.range k).filter fun b =>
      ∃ x ∈ c.blockBuckets blocks b, c.bucketToRank x = c.localRankToRank i n).card
  node : ∀ n < c.nNodes, m (base + (n * c.countPerNode + (c.nLocalBuckets + c.nLocalRanks))) =
    ((Finset.range k).filter fun b => ∃ x ∈ c.blockBuckets blocks b, c.bucketNode x = n).card

theorem card_filter_range_succ (k : ℕ) (p : ℕ → Prop) [DecidablePred p] :
    ((Finset.range (k + 1)).filter p).card =
      ((Finset.range k).filter p).card + if p k then 1 else 0 := by
  rw [Finset.card_filter, Finset.sum_range_succ, ← Finset.card_filter]

variable {blocks m : ℕ → ℕ}

theorem Tallied.countBlock {base k : ℕ} (h : Tallied c base blocks k m) :
    Tallied c base blocks (k + 1) (c.countBlock base blocks m k) := by
  have hblock := counted_foldl (c := c) base m (c.blockBuckets blocks k)
  constructor
  · intro n hn j hj
    rw [Finset.sum_range_succ, ← h.bucket n hn j hj]
    exact hblock.bucket n j hj
  · intro n hn i hi
    rw [card_filter_range_succ, ← h.rank n hn i hi]
    exact hblock.rank n i hi
  · intro n hn
    rw [card_filter_range_succ, ← h.node n hn]
    exact hblock.node n

theorem tallied_foldl {base : ℕ} (h : Tallied c base blocks 0 m) (k : ℕ) :
    Tallied c base blocks k ((List.range k).foldl (c.countBlock base blocks) m) := by
  induction k with
  | zero => exact h
  | succ k ih =>
    rw [List.range_succ, List.foldl_append]
    exact ih.countBlock

theorem tallied_zero (base : ℕ) (blocks m : ℕ → ℕ) :
    Tallied c base blocks 0 (blit m base c.countPerRank fun _ => 0) := by
  have hin : ∀ n < c.nNodes, ∀ j < c.countPerNode,
      blit m base c.countPerRank (fun _ => 0) (base + (n * c.countPerNode + j)) = 0 := by
    intro n hn j hj
    have hlt : n * c.countPerNode + j < c.countPerRank := cell_lt hn hj
    rw [blit, if_pos (by omega)]
  have hwidth : c.countPerNode = c.nLocalBuckets + c.nLocalRanks + 1 := rfl
  constructor
  · exact fun n hn j hj => hin n hn j (by omega)
  · exact fun n hn i hi => hin n hn _ (by omega)
  · exact fun n hn => hin n hn _ (by omega)

end PrepareConfig
end TorchComms.AllToAllvDedup
