import TorchComms.Algos.AllGatherPipeline
import TorchComms.Foundation.Rotation

/-! # The order of the blocks in a rail

A rank is a node and a local rank. The blocks of a rail come to a rank in the order of the nodes
before it, as long as masking with `nRanks - 1` is reduction modulo `nRanks`.
-/
namespace TorchComms.Algos.AllGatherP.Config

open Foundation

variable {c : Config} {a b k p r : ℕ}

/-- The rank in the same rail, `k` nodes before. -/
def origin (c : Config) (rank k : ℕ) : ℕ :=
  back c.nNodes (rank / c.nLocalRanks) k * c.nLocalRanks + rank % c.nLocalRanks

/-- The ranks of one node. -/
def SameNode (c : Config) (a b : ℕ) : Prop := a / c.nLocalRanks = b / c.nLocalRanks

def SameRail (c : Config) (a b : ℕ) : Prop := a % c.nLocalRanks = b % c.nLocalRanks

theorem local_lt (c : Config) (r : ℕ) : r % c.nLocalRanks < c.nLocalRanks :=
  Nat.mod_lt r c.nLocalRanks_pos

theorem node_lt (hr : r < c.nRanks) : r / c.nLocalRanks < c.nNodes :=
  Nat.div_lt_of_lt_mul (by rwa [Nat.mul_comm])

theorem rank_ext (hnode : c.SameNode a b) (hrail : c.SameRail a b) : a = b := by
  rw [← Nat.div_add_mod a c.nLocalRanks, ← Nat.div_add_mod b c.nLocalRanks, hnode, hrail]

section Coordinates

variable {node l : ℕ}

theorem node_of (hl : l < c.nLocalRanks) : (node * c.nLocalRanks + l) / c.nLocalRanks = node := by
  rw [Nat.mul_comm, Nat.mul_add_div c.nLocalRanks_pos, Nat.div_eq_of_lt hl, Nat.add_zero]

theorem local_of (hl : l < c.nLocalRanks) : (node * c.nLocalRanks + l) % c.nLocalRanks = l := by
  rw [Nat.mul_comm, Nat.mul_add_mod, Nat.mod_eq_of_lt hl]

theorem rank_lt (hnode : node < c.nNodes) (hl : l < c.nLocalRanks) :
    node * c.nLocalRanks + l < c.nRanks := by
  have hle := Nat.mul_le_mul_right c.nLocalRanks hnode
  rw [Nat.succ_mul] at hle
  unfold nRanks
  omega

theorem rank_mod (hl : l < c.nLocalRanks) :
    (node * c.nLocalRanks + l) % c.nRanks = node % c.nNodes * c.nLocalRanks + l := by
  rw [nRanks, Nat.mul_comm c.nNodes, Nat.mod_mul, node_of hl, local_of hl, Nat.mul_comm, Nat.add_comm]

end Coordinates

theorem origin_lt (hr : r < c.nRanks) : c.origin r k < c.nRanks :=
  rank_lt (back_lt (node_lt hr)) (c.local_lt r)

theorem origin_node : c.origin r k / c.nLocalRanks = back c.nNodes (r / c.nLocalRanks) k :=
  node_of (c.local_lt r)

theorem origin_rail : c.SameRail (c.origin r k) r := local_of (c.local_lt r)

section

variable (hr : r < c.nRanks)
include hr

@[simp] theorem origin_zero : c.origin r 0 = r := by
  unfold origin
  rw [back_zero (node_lt hr), Nat.div_add_mod']

theorem origin_origin {d : ℕ} (h : d + k ≤ c.nNodes) :
    c.origin (c.origin r d) k = c.origin r (d + k) := by
  have hrail : c.origin r d % c.nLocalRanks = r % c.nLocalRanks := origin_rail
  rw [origin, origin_node, hrail, back_back (node_lt hr) h, origin]

theorem exists_origin (hb : b < c.nRanks) (h : c.SameRail b r) :
    ∃ k < c.nNodes, c.origin r k = b := by
  refine ⟨back c.nNodes (r / c.nLocalRanks) (b / c.nLocalRanks), back_lt (node_lt hr), ?_⟩
  refine rank_ext ?_ (origin_rail.trans h.symm)
  unfold SameNode
  rw [origin_node, back_involutive (node_lt hr) (node_lt hb)]

/-! ### Neighbours -/

theorem upPeer_eq : c.upPeer r = c.origin r 1 := by
  have hN := c.nNodes_pos
  have hnode := node_lt hr
  have hle := Nat.mul_le_mul_right c.nLocalRanks hN
  have hrank : c.nRanks + r - c.nLocalRanks =
      (r / c.nLocalRanks + c.nNodes - 1) * c.nLocalRanks + r % c.nLocalRanks := by
    have hdiv := Nat.div_add_mod' r c.nLocalRanks
    rw [Nat.sub_mul, Nat.add_mul]
    unfold nRanks
    omega
  rw [upPeer, hrank, rank_mod (c.local_lt r)]
  rfl

end

theorem downPeer_eq (r : ℕ) : c.downPeer r =
    (r / c.nLocalRanks + 1) % c.nNodes * c.nLocalRanks + r % c.nLocalRanks := by
  have hrank : c.nRanks + r + c.nLocalRanks =
      (c.nNodes + (r / c.nLocalRanks + 1)) * c.nLocalRanks + r % c.nLocalRanks := by
    have hdiv := Nat.div_add_mod' r c.nLocalRanks
    rw [Nat.add_mul, Nat.add_mul]
    unfold nRanks
    omega
  rw [downPeer, hrank, rank_mod (c.local_lt r), Nat.add_mod_left]

theorem downPeer_lt (r : ℕ) : c.downPeer r < c.nRanks := by
  rw [downPeer_eq]
  exact rank_lt (Nat.mod_lt _ c.nNodes_pos) (c.local_lt r)

theorem upPeer_lt (hr : r < c.nRanks) : c.upPeer r < c.nRanks := by
  rw [upPeer_eq hr]
  exact origin_lt hr

theorem downPeer_node : c.downPeer r / c.nLocalRanks = (r / c.nLocalRanks + 1) % c.nNodes := by
  rw [downPeer_eq, node_of (c.local_lt r)]

theorem downPeer_rail : c.SameRail (c.downPeer r) r := by
  unfold SameRail
  rw [downPeer_eq, local_of (c.local_lt r)]

theorem origin_downPeer (hr : r < c.nRanks) (hk : k + 1 ≤ c.nNodes) :
    c.origin (c.downPeer r) (k + 1) = c.origin r k := by
  have hrail : c.downPeer r % c.nLocalRanks = r % c.nLocalRanks := downPeer_rail
  rw [origin, downPeer_node, hrail, back_next (node_lt hr) hk, origin]

theorem upPeer_downPeer (hr : r < c.nRanks) : c.upPeer (c.downPeer r) = r := by
  rw [upPeer_eq (downPeer_lt r), origin_downPeer hr c.nNodes_pos, origin_zero hr]

theorem downPeer_upPeer (hr : r < c.nRanks) : c.downPeer (c.upPeer r) = r := by
  have hrail : c.SameRail (c.upPeer r) r := by
    rw [upPeer_eq hr]
    exact origin_rail
  refine rank_ext ?_ (downPeer_rail.trans hrail)
  unfold SameNode
  rw [downPeer_node, upPeer_eq hr, origin_node, next_back (node_lt hr)]

theorem downPeer_eq_iff (ha : a < c.nRanks) (hb : b < c.nRanks) :
    c.downPeer a = b ↔ a = c.upPeer b := by
  constructor
  · rintro rfl
    exact (upPeer_downPeer ha).symm
  · rintro rfl
    exact downPeer_upPeer hb

/-! ### Local peers -/

theorem localRankToRank_node (hp : p < c.nLocalRanks) :
    c.SameNode (c.localRankToRank r p) r := node_of hp

theorem localPeer_node : c.SameNode (c.localPeer r p) r := node_of (c.local_lt _)

theorem localPeer_rail :
    c.localPeer r p % c.nLocalRanks = (r % c.nLocalRanks + p) % c.nLocalRanks :=
  local_of (c.local_lt _)

section

variable (h : c.SameNode a b)
include h

theorem one_lt_of_sameNode (hne : a ≠ b) : 1 < c.nLocalRanks := by
  have hpos := c.nLocalRanks_pos
  by_contra hle
  have hone : c.nLocalRanks = 1 := by omega
  apply hne (rank_ext h _)
  unfold SameRail
  rw [hone, Nat.mod_one, Nat.mod_one]

theorem lt_of_sameNode (hb : b < c.nRanks) : a < c.nRanks := by
  have hnode := node_lt hb
  rw [← h] at hnode
  rw [← Nat.div_add_mod' a c.nLocalRanks]
  exact rank_lt hnode (c.local_lt a)

theorem SameNode.exists_localRankToRank : ∃ p < c.nLocalRanks, c.localRankToRank b p = a := by
  refine ⟨a % c.nLocalRanks, c.local_lt a, ?_⟩
  unfold localRankToRank
  rw [← h, Nat.div_add_mod']

theorem exists_localPeer (hne : a ≠ b) : ∃ p, 1 ≤ p ∧ p < c.nLocalRanks ∧ c.localPeer a p = b := by
  have ha := c.local_lt a
  have hb := c.local_lt b
  have hrail : a % c.nLocalRanks ≠ b % c.nLocalRanks := fun hrail => hne (rank_ext h hrail)
  refine ⟨back c.nLocalRanks (b % c.nLocalRanks) (a % c.nLocalRanks), ?_, back_lt hb, ?_⟩
  · rw [back_eq hb ha.le]
    split <;> omega
  · refine rank_ext (localPeer_node.trans h) ?_
    unfold SameRail
    rw [localPeer_rail, back_eq hb ha.le]
    split
    · rw [Nat.add_sub_cancel' (by omega), Nat.mod_eq_of_lt hb]
    · rw [show a % c.nLocalRanks + (b % c.nLocalRanks + c.nLocalRanks - a % c.nLocalRanks) =
        b % c.nLocalRanks + c.nLocalRanks by omega, Nat.add_mod_right, Nat.mod_eq_of_lt hb]

end

/-! ### Masks -/

/-- Masking with `nRanks - 1` is harmless. -/
def Masks (c : Config) : Prop := ∃ m, c.nRanks = 2 ^ m

theorem Masks.mod (h : c.Masks) (x : ℕ) : x &&& (c.nRanks - 1) = x % c.nRanks := by
  rcases h with ⟨m, hm⟩
  rw [hm, Nat.and_two_pow_sub_one_eq_mod]

theorem Masks.chunk (h : c.Masks) (r : ℕ) (hk : k < c.nNodes) :
    c.getRecvChunkIdxInRail r k = c.origin r k := by
  have hle := Nat.mul_le_mul_right c.nLocalRanks hk.le
  have hrank : r + c.nRanks - k * c.nLocalRanks =
      (r / c.nLocalRanks + c.nNodes - k) * c.nLocalRanks + r % c.nLocalRanks := by
    have hdiv := Nat.div_add_mod' r c.nLocalRanks
    rw [Nat.sub_mul, Nat.add_mul]
    unfold nRanks
    omega
  rw [getRecvChunkIdxInRail, h.mod, hrank, rank_mod (c.local_lt r)]
  rfl

theorem Masks.execUpPeer (h : c.Masks) (r : ℕ) : c.execUpPeer r = c.upPeer r := h.mod _

theorem chunk_lt (hr : r < c.nRanks) : c.getRecvChunkIdxInRail a k < c.nRanks := by
  have hle : c.getRecvChunkIdxInRail a k ≤ c.nRanks - 1 := Nat.and_le_right
  omega

end TorchComms.Algos.AllGatherP.Config
