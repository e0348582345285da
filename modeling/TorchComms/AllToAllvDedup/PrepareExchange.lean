import TorchComms.AllToAllvDedup.PrepareTally

/-! # The counts on the ranks of a rail and of a node

Whatever the order of the puts, a rank has the counts of all ranks of its rail. Where the number of
the buckets of a node is a power of two, a rank of the node is told every count from the rail, for
the masks take the remainders there.
-/
namespace TorchComms.AllToAllvDedup

open Foundation

namespace PrepareConfig

variable {c : PrepareConfig}

theorem node_lt {r : ℕ} (hr : r < c.nRanks) : c.node r < c.nNodes :=
  Nat.div_lt_of_lt_mul (by rwa [Nat.mul_comm])

variable {s : ℕ → PrepareRank} {v : ℕ → ℕ → ℕ} {p : ℕ × ℕ} {i n : ℕ}

theorem localRankToRank_lt (hi : i < c.nLocalRanks) (hn : n < c.nNodes) :
    c.localRankToRank i n < c.nRanks := cell_lt hn hi

theorem node_localRankToRank (hi : i < c.nLocalRanks) :
    c.node (c.localRankToRank i n) = n := ((localRankToRank_eq_iff hi).mp rfl).1.symm

theorem localRank_localRankToRank (hi : i < c.nLocalRanks) :
    c.localRank (c.localRankToRank i n) = i := ((localRankToRank_eq_iff hi).mp rfl).2.symm

theorem localRankToRank_self (r : ℕ) : c.localRankToRank (c.localRank r) (c.node r) = r :=
  (localRankToRank_eq_iff (localRank_lt r)).mpr ⟨rfl, rfl⟩

/-! ### The own counts -/

theorem Tallied.congr {base k : ℕ} {blocks blocks' m : ℕ → ℕ} (h : Tallied c base blocks k m)
    (heq : ∀ b < k, c.blockBuckets blocks b = c.blockBuckets blocks' b) :
    Tallied c base blocks' k m := by
  constructor
  · intro n hn j hj
    rw [h.bucket n hn j hj]
    refine Finset.sum_congr rfl fun b hb => ?_
    rw [heq b (Finset.mem_range.mp hb)]
  · intro n hn i hi
    rw [h.rank n hn i hi]
    congr 1
    refine Finset.filter_congr fun b hb => ?_
    rw [heq b (Finset.mem_range.mp hb)]
  · intro n hn
    rw [h.node n hn]
    congr 1
    refine Finset.filter_congr fun b hb => ?_
    rw [heq b (Finset.mem_range.mp hb)]

theorem listed_lt {b r : ℕ} (hb : b < c.totalNumSendBlocks) (hr : r < c.blockNumRecvBuckets) :
    b * c.blockNumRecvBuckets + r < c.numListed := cell_lt hb hr

theorem tallied_own (r : ℕ) (blocks : ℕ → ℕ) (x : PrepareRank) :
    Tallied c (c.node r * c.countPerRank) blocks c.totalNumSendBlocks
      (c.computeNumSendBlocks r (c.copyBlockRecvBuckets r blocks x)).tmpNumSendBlocksBuffH := by
  have hbase : c.node r * c.nNodes * (c.nLocalBuckets + c.nLocalRanks + 1) =
      c.node r * c.countPerRank := Nat.mul_assoc ..
  unfold computeNumSendBlocks
  simp only [hbase]
  refine (tallied_foldl (tallied_zero _ _ _) _).congr fun b hb => ?_
  unfold blockBuckets
  refine List.map_congr_left fun i hi => ?_
  exact blockIs_blit (fun _ _ => rfl) _ (listed_lt hb (List.mem_range.mp hi))

/-! ### The exchange -/

/-- The rank that a put goes to. -/
def putPeer (c : PrepareConfig) (p : ℕ × ℕ) : ℕ :=
  c.localRankToRank (c.localRank p.1) ((c.node p.1 + p.2 + 1) % c.nNodes)

/-- The puts of the list have arrived, from ranks that hold `v`. -/
structure Arrived (c : PrepareConfig) (v : ℕ → ℕ → ℕ) (l : List (ℕ × ℕ)) (s : ℕ → PrepareRank) :
    Prop where
  own : ∀ r < c.nRanks, BlockIs (s r).tmpNumSendBlocksBuffH c.countPerRank (c.node r) (v r)
  put : ∀ p ∈ l, BlockIs (s (c.putPeer p)).tmpNumSendBlocksBuffH c.countPerRank (c.node p.1) (v p.1)

theorem node_putPeer (p : ℕ × ℕ) : c.node (c.putPeer p) = (c.node p.1 + p.2 + 1) % c.nNodes :=
  node_localRankToRank (localRank_lt _)

theorem putPeer_node_ne (hr : p.1 < c.nRanks) (hi : p.2 < c.nNodes - 1) :
    c.node (c.putPeer p) ≠ c.node p.1 := by
  have hnode := node_lt hr
  rw [node_putPeer]
  rcases Nat.lt_or_ge (c.node p.1 + p.2 + 1) c.nNodes with hlt | hge
  · rw [Nat.mod_eq_of_lt hlt]
    omega
  · rw [Nat.mod_eq_sub_mod hge, Nat.mod_eq_of_lt (by omega)]
    omega

variable {l : List (ℕ × ℕ)}

theorem Arrived.iput
    (h : Arrived c v l s) (hr : p.1 < c.nRanks) (hi : p.2 < c.nNodes - 1) :
    Arrived c v (l ++ [p]) (c.iput s p) := by
  have hne := putPeer_node_ne hr hi
  have hto : ∀ r, (c.iput s p r).tmpNumSendBlocksBuffH = if r = c.putPeer p then
      blit (s r).tmpNumSendBlocksBuffH (c.node p.1 * c.countPerRank) c.countPerRank
        fun x => (s p.1).tmpNumSendBlocksBuffH (c.node p.1 * c.countPerRank + x)
      else (s r).tmpNumSendBlocksBuffH := by
    intro r
    have hput : c.iput s p = Function.update s (c.putPeer p) { s (c.putPeer p) with
        tmpNumSendBlocksBuffH := blit (s (c.putPeer p)).tmpNumSendBlocksBuffH
          (c.node p.1 * c.countPerRank) c.countPerRank fun x =>
            (s p.1).tmpNumSendBlocksBuffH (c.node p.1 * c.countPerRank + x) } := rfl
    by_cases hpeer : r = c.putPeer p
    · rw [if_pos hpeer, hput, hpeer, Function.update_self]
    · rw [if_neg hpeer, hput, Function.update_of_ne hpeer]
  constructor
  · intro r hr'
    rw [hto]
    split
    · rename_i hpeer
      apply (h.own r hr').blit_of_ne
      rwa [hpeer]
    · exact h.own r hr'
  · intro q hq
    rw [hto]
    split
    · rename_i hpeer
      by_cases hnode : c.node q.1 = c.node p.1
      · -- the same block of the same rank: put by the same rank
        have hfrom : q.1 = p.1 := by
          have hrail : c.localRank q.1 = c.localRank p.1 := by
            have heq := congrArg c.localRank hpeer
            unfold putPeer at heq
            rwa [localRank_localRankToRank (localRank_lt _),
              localRank_localRankToRank (localRank_lt _)] at heq
          rw [← localRankToRank_self (c := c) q.1, hnode, hrail, localRankToRank_self]
        rw [hfrom]
        exact blockIs_blit (h.own p.1 hr)
      · rcases List.mem_append.mp hq with hq | hq
        · exact (h.put q hq).blit_of_ne hnode _
        · rw [List.mem_singleton.mp hq] at hnode
          exact absurd rfl hnode
    · rename_i hpeer
      rcases List.mem_append.mp hq with hq | hq
      · exact h.put q hq
      · rw [List.mem_singleton.mp hq] at hpeer
        exact absurd rfl hpeer

theorem mem_puts : p ∈ c.puts ↔ p.1 < c.nRanks ∧ p.2 < c.nNodes - 1 := by
  unfold puts
  rw [List.mem_product, List.mem_range, List.mem_range]

theorem arrived_foldl (l : List (ℕ × ℕ)) (hl : ∀ p ∈ l, p ∈ c.puts)
    (hown : ∀ r < c.nRanks, BlockIs (s r).tmpNumSendBlocksBuffH c.countPerRank (c.node r) (v r)) :
    Arrived c v l (l.foldl c.iput s) := by
  induction l using List.reverseRecOn with
  | nil => exact ⟨hown, fun p hp => absurd hp List.not_mem_nil⟩
  | append_singleton l p ih =>
    rw [List.foldl_append]
    rcases mem_puts.mp (hl p (List.mem_append_right l (List.mem_singleton_self p))) with ⟨hr, hi⟩
    exact (ih fun q hq => hl q (List.mem_append_left _ hq)).iput hr hi

theorem exists_put {r n : ℕ} (hr : r < c.nRanks) (hn : n < c.nNodes) (hne : n ≠ c.node r) :
    ∃ p ∈ c.puts, p.1 = r ∧ c.putPeer p = c.localRankToRank (c.localRank r) n := by
  have hnode := node_lt hr
  have hex : ∃ i < c.nNodes - 1, (c.node r + i + 1) % c.nNodes = n := by
    rcases Nat.lt_or_gt_of_ne hne with hlt | hgt
    · refine ⟨n + c.nNodes - c.node r - 1, by omega, ?_⟩
      have hsum : c.node r + (n + c.nNodes - c.node r - 1) + 1 = n + c.nNodes := by omega
      rw [hsum, Nat.add_mod_right, Nat.mod_eq_of_lt hn]
    · refine ⟨n - c.node r - 1, by omega, ?_⟩
      have hsum : c.node r + (n - c.node r - 1) + 1 = n := by omega
      rw [hsum, Nat.mod_eq_of_lt hn]
  rcases hex with ⟨i, hi, hmod⟩
  refine ⟨(r, i), mem_puts.mpr ⟨hr, hi⟩, rfl, ?_⟩
  unfold putPeer
  rw [hmod]

theorem Arrived.all (h : Arrived c v l s)
    (hl : ∀ p ∈ c.puts, p ∈ l) {r y : ℕ} (hr : r < c.nRanks) (hy : y < c.nRanks)
    (hrail : c.localRank r = c.localRank y) :
    BlockIs (s y).tmpNumSendBlocksBuffH c.countPerRank (c.node r) (v r) := by
  by_cases hnode : c.node y = c.node r
  · have hsame : r = y := by
      rw [← localRankToRank_self (c := c) r, ← hnode, hrail, localRankToRank_self]
    subst hsame
    exact h.own r hr
  · rcases exists_put hr (node_lt hy) hnode with ⟨p, hp, hfrom, hto⟩
    have hblock := h.put p (hl p hp)
    rwa [hto, hfrom, hrail, localRankToRank_self] at hblock

theorem Tallied.of_blockIs {n k : ℕ} {blocks m m' : ℕ → ℕ}
    (h : Tallied c (n * c.countPerRank) blocks k m)
    (hblock : BlockIs m' c.countPerRank n fun i => m (n * c.countPerRank + i)) :
    Tallied c (n * c.countPerRank) blocks k m' := by
  have hin : ∀ n' < c.nNodes, ∀ j < c.countPerNode, m' (n * c.countPerRank +
      (n' * c.countPerNode + j)) = m (n * c.countPerRank + (n' * c.countPerNode + j)) := by
    intro n' hn' j hj
    exact hblock _ (cell_lt hn' hj)
  have hwidth : c.countPerNode = c.nLocalBuckets + c.nLocalRanks + 1 := rfl
  constructor
  · intro n' hn' j hj
    rw [hin n' hn' j (by omega)]
    exact h.bucket n' hn' j hj
  · intro n' hn' i hi
    rw [hin n' hn' _ (by omega)]
    exact h.rank n' hn' i hi
  · intro n' hn'
    rw [hin n' hn' _ (by omega)]
    exact h.node n' hn'

end PrepareConfig
end TorchComms.AllToAllvDedup
