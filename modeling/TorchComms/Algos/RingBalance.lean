import TorchComms.Algos.RingBuilder
import Mathlib.Data.Nat.ModEq

/-! # The rings of the builder are Hamiltonian and balanced

In ring `c` the ranks of one place are on one node or its successor, so each block of the ring
leaves its node at one place only, and another ring leaves at another place.
-/
namespace TorchComms.Algos.Topo

open Foundation

/-! ### A ring is a permutation of the ranks -/

section Ring

variable {n size c : ℕ}

/-- The node of the rank at place `i` of block `m` of ring `c`. -/
def nodeAt (n size c m i : ℕ) : ℕ := (m + if size ≤ i + c then 1 else 0) % n

variable {m i : ℕ}

theorem nodeAt_of_lt (hm : m < n) (h : i + c < size) : nodeAt n size c m i = m := by
  rw [nodeAt, if_neg (by omega), Nat.add_zero, Nat.mod_eq_of_lt hm]

theorem nodeAt_of_ge (h : size ≤ i + c) : nodeAt n size c m i = (m + 1) % n := by
  rw [nodeAt, if_pos h]

theorem nodeAt_lt {m : ℕ} (hm : m < n) (i : ℕ) : nodeAt n size c m i < n :=
  Nat.mod_lt _ (Nat.zero_lt_of_lt hm)

theorem nodeAt_inj {m m' i : ℕ} (hm : m < n) (hm' : m' < n)
    (h : nodeAt n size c m i = nodeAt n size c m' i) : m = m' := by
  have hmod : m ≡ m' [MOD n] := Nat.ModEq.add_right_cancel' _ h
  unfold Nat.ModEq at hmod
  rwa [Nat.mod_eq_of_lt hm, Nat.mod_eq_of_lt hm'] at hmod

theorem getElem?_flatRing (hc : c < size) (hm : m < n) (hi : i < size) :
    (flatRing n size (n * size) c)[m * size + i]? = some (nodeAt n size c m i * size + i) := by
  rw [flatRing_eq hc, getElem?_cells hm hi]
  rfl

theorem length_flatRing (hc : c < size) : (flatRing n size (n * size) c).length = n * size := by
  rw [flatRing_eq hc, length_cells]

theorem flatRing_perm (hc : c < size) :
    (flatRing n size (n * size) c).Perm (List.range (n * size)) := by
  have hnodup : (flatRing n size (n * size) c).Nodup := by
    rw [List.nodup_iff_getElem?_ne_getElem?]
    intro p q hpq hq heq
    rw [length_flatRing hc] at hq
    rcases exists_cell hq with ⟨m', i', hm', hi', rfl⟩
    rcases exists_cell (hpq.trans hq) with ⟨m, i, hm, hi, rfl⟩
    rw [getElem?_flatRing hc hm hi, getElem?_flatRing hc hm' hi'] at heq
    rcases (cell_inj hi hi').mp (Option.some.inj heq) with ⟨hnode, rfl⟩
    rw [nodeAt_inj hm hm' hnode] at hpq
    exact Nat.lt_irrefl _ hpq
  have hsub : ∀ r ∈ flatRing n size (n * size) c, r ∈ List.range (n * size) := by
    intro r hr
    rcases List.getElem?_of_mem hr with ⟨p, hp⟩
    have hlt := (List.getElem?_eq_some_iff.mp hp).1
    rw [length_flatRing hc] at hlt
    rcases exists_cell hlt with ⟨m, i, hm, hi, rfl⟩
    rw [getElem?_flatRing hc hm hi] at hp
    cases hp
    exact List.mem_range.mpr (cell_lt (nodeAt_lt hm i) hi)
  apply (hnodup.subperm hsub).perm_of_length_le
  rw [length_flatRing hc, List.length_range]

end Ring

/-! ### The tables -/

section Tables

variable {nRanks : ℕ} {ring : List ℕ}

/-- What the loop body finds next to the rank. -/
def nextOf (nRanks : ℕ) (ring : List ℕ) (r : ℕ) : ℕ :=
  ring.getD ((((position nRanks ring r).getD 0) + 1) % nRanks) 0

def prevOf (nRanks : ℕ) (ring : List ℕ) (r : ℕ) : ℕ :=
  ring.getD ((((position nRanks ring r).getD 0) + nRanks - 1) % nRanks) 0

theorem exists_position {r : ℕ} (hlength : ring.length = nRanks) (hr : r ∈ ring) :
    ∃ pos, position nRanks ring r = some pos ∧ ring[pos]? = some r := by
  rcases List.getElem?_of_mem hr with ⟨p, hp⟩
  have hlt := (List.getElem?_eq_some_iff.mp hp).1
  unfold position
  cases hfind : (List.range nRanks).find? fun i => ring[i]? = some r with
  | none =>
    have hnone := List.find?_eq_none.mp hfind p (List.mem_range.mpr (hlength ▸ hlt))
    exact absurd (decide_eq_true hp) hnone
  | some pos =>
    have hget := List.find?_some hfind
    exact ⟨pos, rfl, of_decide_eq_true hget⟩

/-- The loops fill the tables with the neighbours of the ranks in the rings. -/
theorem foldl_setNeighbours {l : List (ℕ × ℕ)} {out : MultiFlatRing}
    (hfound : ∀ rc ∈ l, ∃ pos, position nRanks (out.rings rc.2) rc.1 = some pos) :
    l.foldl (fun out rc => setNeighbours nRanks out rc.1 rc.2) out =
      { out with
        ringPrev := scatter (fun rc => (rc.2, rc.1))
          (fun rc => prevOf nRanks (out.rings rc.2) rc.1) l out.ringPrev
        ringNext := scatter (fun rc => (rc.2, rc.1))
          (fun rc => nextOf nRanks (out.rings rc.2) rc.1) l out.ringNext } := by
  induction l generalizing out with
  | nil => rfl
  | cons rc l ih =>
    rcases hfound rc List.mem_cons_self with ⟨pos, hpos⟩
    have hstep : setNeighbours nRanks out rc.1 rc.2 =
        { out with
          ringPrev := Function.update out.ringPrev (rc.2, rc.1)
            (prevOf nRanks (out.rings rc.2) rc.1)
          ringNext := Function.update out.ringNext (rc.2, rc.1)
            (nextOf nRanks (out.rings rc.2) rc.1) } := by
      simp only [setNeighbours, prevOf, nextOf, hpos, Option.getD_some]
    rw [List.foldl_cons, hstep, ih]
    · rfl
    · exact fun rc' hrc' => hfound rc' (List.mem_cons_of_mem _ hrc')

theorem follows_of_nodup (hnodup : ring.Nodup) (hlength : ring.length = nRanks) :
    Follows ring (prevOf nRanks ring) (nextOf nRanks ring) := by
  have hposition : ∀ p x, ring[p]? = some x → position nRanks ring x = some p := by
    intro p x hp
    rcases exists_position hlength (List.mem_of_getElem? hp) with ⟨pos, hpos, hget⟩
    rw [hpos, (List.getElem?_inj (List.getElem?_eq_some_iff.mp hget).1 hnodup).mp
      (hget.trans hp.symm)]
  have hget : ∀ q < nRanks, ring[q]? = some (ring.getD q 0) := by
    intro q hq
    rw [List.getD_eq_getElem?_getD, List.getElem?_eq_getElem (by omega), Option.getD_some]
  constructor
  · intro p x hp
    have hlt := (List.getElem?_eq_some_iff.mp hp).1
    rw [nextOf, hposition p x hp, hlength, Option.getD_some]
    exact hget _ (Nat.mod_lt _ (by omega))
  · intro p x hp
    have hlt := (List.getElem?_eq_some_iff.mp hp).1
    rw [prevOf, hposition p x hp, hlength, Option.getD_some]
    exact hget _ (Nat.mod_lt _ (by omega))

end Tables

/-! ### The result of the builder -/

section Built

variable {nNodes nLocalRanks nRings c : ℕ}

theorem copyRings_eq (hlocal : 1 ≤ nLocalRanks) (hc : c < nRings) (nNodes nRanks : ℕ)
    (rings : ℕ → List ℕ) :
    copyRings (getMultiFlatRing nNodes nLocalRanks nRanks) nRings rings c =
      flatRing nNodes nLocalRanks nRanks (c % nLocalRanks) := by
  have hlength : (getMultiFlatRing nNodes nLocalRanks nRanks).length = nLocalRanks := by
    rw [getMultiFlatRing, List.length_map, List.length_range]
  have hget : ∀ i < nLocalRanks, (getMultiFlatRing nNodes nLocalRanks nRanks).getD i [] =
      flatRing nNodes nLocalRanks nRanks i := by
    intro i hi
    rw [getMultiFlatRing, List.getD_eq_getElem?_getD, List.getElem?_map, List.getElem?_range hi]
    rfl
  unfold copyRings
  rw [hlength]
  rcases Nat.lt_or_ge c nLocalRanks with hlt | hge
  · rw [scatter_of_not_mem]
    · rw [Nat.mod_eq_of_lt hlt]
      apply scatter_of_forall
      · rintro i - rfl
        exact hget _ hlt
      · exact Or.inr ⟨c, List.mem_range.mpr (by omega), rfl⟩
    · intro i hi heq
      rw [List.mem_range'_1] at hi
      change i = c at heq
      omega
  · apply scatter_of_forall
    · rintro i - rfl
      exact hget _ (Nat.mod_lt _ hlocal)
    · exact Or.inr ⟨c, List.mem_range'_1.mpr (by omega), rfl⟩

/-- A ring of the result with its two tables. -/
structure BuiltRing (nNodes nLocalRanks : ℕ) (out : MultiFlatRing) (c : ℕ) : Prop where
  ring : out.rings c = flatRing nNodes nLocalRanks (nNodes * nLocalRanks) (c % nLocalRanks)
  follows : Follows (out.rings c) (fun r => out.ringPrev (c, r)) (fun r => out.ringNext (c, r))

theorem built (hlocal : 1 ≤ nLocalRanks) (out : MultiFlatRing) (hc : c < nRings) :
    BuiltRing nNodes nLocalRanks
      (buildMultiFlatRing nLocalRanks (nNodes * nLocalRanks) nNodes nRings out) c := by
  have hrings : ∀ c < nRings, copyRings (getMultiFlatRing nNodes nLocalRanks
      (nNodes * nLocalRanks)) nRings out.rings c =
        flatRing nNodes nLocalRanks (nNodes * nLocalRanks) (c % nLocalRanks) :=
    fun c hc => copyRings_eq hlocal hc _ _ _
  have hlt : ∀ c, c % nLocalRanks < nLocalRanks := fun c => Nat.mod_lt c hlocal
  unfold buildMultiFlatRing
  rw [foldl_setNeighbours]
  · constructor
    · exact hrings c hc
    · dsimp only
      rw [hrings c hc]
      have hperm := (flatRing_perm (hlt c) : (flatRing nNodes _ _ _).Perm _)
      apply (follows_of_nodup (hperm.nodup_iff.mpr List.nodup_range)
        (length_flatRing (hlt c))).congr
      · intro x hx
        have hmem : (x, c) ∈ List.range (nNodes * nLocalRanks) ×ˢ List.range nRings :=
          List.mem_product.mpr ⟨hperm.mem_iff.mp hx, List.mem_range.mpr hc⟩
        apply scatter_of_forall _ (Or.inr ⟨(x, c), hmem, rfl⟩)
        rintro ⟨r, c'⟩ - heq
        cases heq
        dsimp only
        rw [hrings c hc]
      · intro x hx
        have hmem : (x, c) ∈ List.range (nNodes * nLocalRanks) ×ˢ List.range nRings :=
          List.mem_product.mpr ⟨hperm.mem_iff.mp hx, List.mem_range.mpr hc⟩
        apply scatter_of_forall _ (Or.inr ⟨(x, c), hmem, rfl⟩)
        rintro ⟨r, c'⟩ - heq
        cases heq
        dsimp only
        rw [hrings c hc]
  · rintro ⟨r, c'⟩ hmem
    rw [List.mem_product, List.mem_range, List.mem_range] at hmem
    dsimp only
    rw [hrings c' hmem.2]
    rcases exists_position (length_flatRing (hlt c'))
      ((flatRing_perm (hlt c')).mem_iff.mpr (List.mem_range.mpr hmem.1)) with ⟨pos, hpos, -⟩
    exact ⟨pos, hpos⟩

/-! ### Cycles -/

/-- The ring is a permutation of the ranks, and its tables are a single cycle and its inverse. -/
structure Hamiltonian (nRanks : ℕ) (out : MultiFlatRing) (c : ℕ) : Prop where
  perm : (out.rings c).Perm (List.range nRanks)
  next_lt : ∀ r < nRanks, out.ringNext (c, r) < nRanks
  prev_next : ∀ r < nRanks, out.ringPrev (c, out.ringNext (c, r)) = r
  next_prev : ∀ r < nRanks, out.ringNext (c, out.ringPrev (c, r)) = r
  cycle : ∀ r < nRanks, ∀ s < nRanks, ∃ k, (fun r => out.ringNext (c, r))^[k] r = s

variable {out : MultiFlatRing}

theorem BuiltRing.hamiltonian (hlocal : 1 ≤ nLocalRanks) (h : BuiltRing nNodes nLocalRanks out c) :
    Hamiltonian (nNodes * nLocalRanks) out c := by
  have hperm : (out.rings c).Perm (List.range (nNodes * nLocalRanks)) := by
    rw [h.ring]
    exact flatRing_perm (Nat.mod_lt c hlocal)
  have hmem : ∀ r, r < nNodes * nLocalRanks ↔ r ∈ out.rings c := fun r => by
    rw [hperm.mem_iff, List.mem_range]
  constructor
  · exact hperm
  · exact fun r hr => (hmem _).mpr (h.follows.next_mem ((hmem r).mp hr))
  · exact fun r hr => h.follows.prev_next ((hmem r).mp hr)
  · exact fun r hr => h.follows.next_prev ((hmem r).mp hr)
  · exact fun r hr s hs => h.follows.exists_iterate ((hmem r).mp hr) ((hmem s).mp hs)

/-! ### Edges between nodes -/

/-- The edge of ring `c` that leaves the rank leads to another node. -/
def Crosses (nLocalRanks : ℕ) (out : MultiFlatRing) (c r : ℕ) : Prop :=
  out.ringNext (c, r) / nLocalRanks ≠ r / nLocalRanks

instance (nLocalRanks : ℕ) (out : MultiFlatRing) (c r : ℕ) :
    Decidable (Crosses nLocalRanks out c r) :=
  inferInstanceAs (Decidable (_ ≠ _))

theorem next_place {n size m j : ℕ} (hm : m < n) (hj : j < size) :
    (m * size + j + 1) % (n * size) =
      if j + 1 < size then m * size + (j + 1) else (m + 1) % n * size + 0 := by
  split
  · rename_i hlt
    exact Nat.mod_eq_of_lt (cell_lt hm hlt)
  · rw [show m * size + j + 1 = (m + 1) * size by rw [Nat.succ_mul]; omega,
      Nat.mul_mod_mul_right]
    exact (Nat.add_zero _).symm

theorem BuiltRing.next_eq (h : BuiltRing nNodes nLocalRanks out c) (hc : c < nLocalRanks) {r : ℕ}
    (hr : r < nNodes * nLocalRanks) : out.ringNext (c, r) =
      if r % nLocalRanks = nLocalRanks - 1 - c then
        (r / nLocalRanks + 1) % nNodes * nLocalRanks + (nLocalRanks - c) % nLocalRanks
      else r / nLocalRanks * nLocalRanks + (r % nLocalRanks + 1) % nLocalRanks := by
  have hring := h.ring
  rw [Nat.mod_eq_of_lt hc] at hring
  have hmem : r ∈ out.rings c := by
    rw [hring]
    exact (flatRing_perm hc).mem_iff.mpr (List.mem_range.mpr hr)
  rcases List.getElem?_of_mem hmem with ⟨p, hp⟩
  have hlt := (List.getElem?_eq_some_iff.mp hp).1
  have hnext := h.follows.next_get p r hp
  rw [hring, length_flatRing hc] at hlt hnext
  rcases exists_cell hlt with ⟨m, j, hm, hj, rfl⟩
  rw [hring, getElem?_flatRing hc hm hj] at hp
  cases hp
  rw [cell_mod hj, cell_div hj]
  rw [next_place hm hj] at hnext
  by_cases hlast : j + 1 < nLocalRanks
  · -- Within a block the ring goes on to the next local rank.
    rw [if_pos hlast, getElem?_flatRing hc hm hlast] at hnext
    rw [← Option.some.inj hnext]
    by_cases hleave : j = nLocalRanks - 1 - c
    · rw [if_pos hleave, nodeAt_of_ge (by omega), nodeAt_of_lt hm (by omega),
        Nat.mod_eq_of_lt (by omega : nLocalRanks - c < nLocalRanks)]
      omega
    · rw [if_neg hleave, Nat.mod_eq_of_lt hlast]
      rcases Nat.lt_or_ge (j + c) nLocalRanks with hlt | hge
      · rw [nodeAt_of_lt hm (by omega), nodeAt_of_lt hm hlt]
      · rw [nodeAt_of_ge (by omega), nodeAt_of_ge hge]
  · -- From the end of a block it goes on to local rank 0 of the next block, a rank of that node.
    have hnode : (m + 1) % nNodes < nNodes := Nat.mod_lt _ (by omega)
    rw [if_neg hlast, getElem?_flatRing hc hnode (by omega), nodeAt_of_lt hnode (by omega)] at hnext
    rw [← Option.some.inj hnext]
    by_cases hleave : j = nLocalRanks - 1 - c
    · rw [if_pos hleave, nodeAt_of_lt hm (by omega), show nLocalRanks - c = nLocalRanks by omega,
        Nat.mod_self]
    · rw [if_neg hleave, nodeAt_of_ge (by omega), show j + 1 = nLocalRanks by omega, Nat.mod_self]

theorem BuiltRing.crosses_iff (h : BuiltRing nNodes nLocalRanks out c) (hnodes : 2 ≤ nNodes)
    (hc : c < nLocalRanks) {r : ℕ} (hr : r < nNodes * nLocalRanks) :
    Crosses nLocalRanks out c r ↔ r % nLocalRanks = nLocalRanks - 1 - c := by
  have hlocal : 0 < nLocalRanks := Nat.zero_lt_of_lt hc
  have hnode : r / nLocalRanks < nNodes := Nat.div_lt_of_lt_mul (Nat.mul_comm nNodes _ ▸ hr)
  unfold Crosses
  rw [h.next_eq hc hr]
  split
  · rename_i hleave
    rw [cell_div (Nat.mod_lt _ hlocal)]
    apply iff_of_true _ hleave
    rcases Nat.lt_or_ge (r / nLocalRanks + 1) nNodes with hlt | hge
    · rw [Nat.mod_eq_of_lt hlt]
      exact Nat.succ_ne_self _
    · rw [show r / nLocalRanks + 1 = nNodes by omega, Nat.mod_self]
      omega
  · rename_i hstay
    rw [cell_div (Nat.mod_lt _ hlocal)]
    exact iff_of_false (fun hne => hne rfl) hstay

/-- The edges of ring `c` between nodes. -/
structure InterNode (nNodes nLocalRanks : ℕ) (out : MultiFlatRing) (c : ℕ) : Prop where
  count : ((Finset.range (nNodes * nLocalRanks)).filter (Crosses nLocalRanks out c)).card = nNodes
  leaves : ∀ r < nNodes * nLocalRanks, Crosses nLocalRanks out c r →
    r % nLocalRanks = nLocalRanks - 1 - c
  arrives : ∀ r < nNodes * nLocalRanks, Crosses nLocalRanks out c r → out.ringNext (c, r) =
    (r / nLocalRanks + 1) % nNodes * nLocalRanks + (nLocalRanks - c) % nLocalRanks

theorem BuiltRing.interNode (h : BuiltRing nNodes nLocalRanks out c) (hnodes : 2 ≤ nNodes)
    (hc : c < nLocalRanks) : InterNode nNodes nLocalRanks out c := by
  have hlt : nLocalRanks - 1 - c < nLocalRanks := by omega
  constructor
  · have hcard : ((Finset.range (nNodes * nLocalRanks)).filter (Crosses nLocalRanks out c)).card =
        (Finset.range nNodes).card := by
      apply Finset.card_nbij' (· / nLocalRanks) (· * nLocalRanks + (nLocalRanks - 1 - c))
      · intro r hr
        rw [Finset.mem_coe, Finset.mem_filter, Finset.mem_range] at hr
        exact Finset.mem_coe.mpr (Finset.mem_range.mpr
          (Nat.div_lt_of_lt_mul (Nat.mul_comm _ nLocalRanks ▸ hr.1)))
      · intro m hm
        rw [Finset.mem_coe, Finset.mem_range] at hm
        rw [Finset.mem_coe, Finset.mem_filter, Finset.mem_range]
        exact ⟨cell_lt hm hlt, (h.crosses_iff hnodes hc (cell_lt hm hlt)).mpr (cell_mod hlt)⟩
      · intro r hr
        rw [Finset.mem_coe, Finset.mem_filter, Finset.mem_range] at hr
        dsimp only
        rw [← (h.crosses_iff hnodes hc hr.1).mp hr.2, Nat.mul_comm]
        exact Nat.div_add_mod r nLocalRanks
      · exact fun m _ => cell_div hlt
    rw [hcard, Finset.card_range]
  · exact fun r hr => (h.crosses_iff hnodes hc hr).mp
  · intro r hr hcross
    rw [h.next_eq hc hr, if_pos ((h.crosses_iff hnodes hc hr).mp hcross)]

theorem sub_mod_eq_iff {size i c : ℕ} (hc : c < size) (hi : i < size) :
    (size - c) % size = i ↔ c = (size - i) % size := by
  rcases Nat.eq_zero_or_pos c with rfl | hcpos
  · rcases Nat.eq_zero_or_pos i with rfl | hipos
    · simp
    · rw [Nat.sub_zero, Nat.mod_self, Nat.mod_eq_of_lt (by omega : size - i < size)]
      omega
  · rw [Nat.mod_eq_of_lt (by omega : size - c < size)]
    rcases Nat.eq_zero_or_pos i with rfl | hipos
    · rw [Nat.sub_zero, Nat.mod_self]
      omega
    · rw [Nat.mod_eq_of_lt (by omega : size - i < size)]
      omega

/-- Over as many rings as there are local ranks, each rank is the source of one edge between nodes
and the target of one. -/
structure RailBalanced (nNodes nLocalRanks : ℕ) (out : MultiFlatRing) : Prop where
  source : ∀ r < nNodes * nLocalRanks, ∃! c, c < nLocalRanks ∧ Crosses nLocalRanks out c r
  target : ∀ s < nNodes * nLocalRanks, ∃! e : ℕ × ℕ, e.1 < nLocalRanks ∧
    e.2 < nNodes * nLocalRanks ∧ Crosses nLocalRanks out e.1 e.2 ∧ out.ringNext e = s

theorem railBalanced (h : ∀ c < nLocalRanks, BuiltRing nNodes nLocalRanks out c)
    (hnodes : 2 ≤ nNodes) (hlocal : 1 ≤ nLocalRanks) : RailBalanced nNodes nLocalRanks out := by
  constructor
  · intro r hr
    have hmod := Nat.mod_lt r hlocal
    have hc : nLocalRanks - 1 - r % nLocalRanks < nLocalRanks := by omega
    refine ⟨nLocalRanks - 1 - r % nLocalRanks, ⟨hc, ?_⟩, ?_⟩
    · apply ((h _ hc).crosses_iff hnodes hc hr).mpr
      omega
    · rintro c ⟨hc', hcross⟩
      have hleave := ((h c hc').crosses_iff hnodes hc' hr).mp hcross
      omega
  · intro s hs
    rcases exists_cell hs with ⟨b, i, hb, hi, rfl⟩
    have hc : (nLocalRanks - i) % nLocalRanks < nLocalRanks := Nat.mod_lt _ hlocal
    have hreach : ∀ c < nLocalRanks,
        (nLocalRanks - c) % nLocalRanks = i ↔ c = (nLocalRanks - i) % nLocalRanks :=
      fun c hc => sub_mod_eq_iff hc hi
    have hsrc : back nNodes b 1 * nLocalRanks +
        (nLocalRanks - 1 - (nLocalRanks - i) % nLocalRanks) < nNodes * nLocalRanks :=
      cell_lt (back_lt hb) (by omega)
    have hcell : nLocalRanks - 1 - (nLocalRanks - i) % nLocalRanks < nLocalRanks := by omega
    have hnext : out.ringNext ((nLocalRanks - i) % nLocalRanks, back nNodes b 1 * nLocalRanks +
        (nLocalRanks - 1 - (nLocalRanks - i) % nLocalRanks)) = b * nLocalRanks + i := by
      rw [(h _ hc).next_eq hc hsrc, cell_mod hcell, if_pos rfl, cell_div hcell, next_back hb,
        (hreach _ hc).mpr rfl]
    refine ⟨(_, _), ⟨hc, hsrc, ((h _ hc).crosses_iff hnodes hc hsrc).mpr (cell_mod hcell), hnext⟩, ?_⟩
    rintro ⟨c, r⟩ ⟨hc', hr, hcross, heq⟩
    dsimp only at hc' hr hcross
    have harrive := ((h c hc').interNode hnodes hc').arrives r hr hcross
    rw [heq] at harrive
    have hplace := ((cell_inj hi (Nat.mod_lt _ hlocal)).mp harrive).2
    have hring := (hreach c hc').mp hplace.symm
    subst hring
    have hham := (h _ hc).hamiltonian hlocal
    have hback := hham.prev_next r hr
    rw [heq, ← hnext, hham.prev_next _ hsrc] at hback
    rw [hback]

/-- For all sizes the rings are Hamiltonian cycles; the edges between nodes leave ring `c` at local
rank `L - 1 - c` and reach the next node at `(L - c) % L`, and are balanced over `L` rings. -/
theorem multiFlatRing_spec {nNodes nLocalRanks nRings : ℕ} (hlocal : 1 ≤ nLocalRanks)
    (out : MultiFlatRing) :
    (∀ c < nRings, Hamiltonian (nNodes * nLocalRanks)
        (buildMultiFlatRing nLocalRanks (nNodes * nLocalRanks) nNodes nRings out) c) ∧
      (2 ≤ nNodes →
        (∀ c < nRings, c < nLocalRanks → InterNode nNodes nLocalRanks
          (buildMultiFlatRing nLocalRanks (nNodes * nLocalRanks) nNodes nRings out) c) ∧
        (nLocalRanks ≤ nRings → RailBalanced nNodes nLocalRanks
          (buildMultiFlatRing nLocalRanks (nNodes * nLocalRanks) nNodes nRings out))) := by
  refine ⟨fun c hc => (built hlocal out hc).hamiltonian hlocal, fun hnodes => ⟨?_, ?_⟩⟩
  · exact fun c hc hlt => (built hlocal out hc).interNode hnodes hlt
  · exact fun hle => railBalanced (fun c hc => built hlocal out (by omega)) hnodes hlocal

/-- Two nodes of two ranks, with three rings. -/
theorem multiFlatRing_spec_pairs :
    (∀ c < 3, Hamiltonian (2 * 2)
        (buildMultiFlatRing 2 (2 * 2) 2 3 ⟨fun _ => 0, fun _ => 0, fun _ => []⟩) c) ∧
      (2 ≤ 2 →
        (∀ c < 3, c < 2 → InterNode 2 2
          (buildMultiFlatRing 2 (2 * 2) 2 3 ⟨fun _ => 0, fun _ => 0, fun _ => []⟩) c) ∧
        (2 ≤ 3 → RailBalanced 2 2
          (buildMultiFlatRing 2 (2 * 2) 2 3 ⟨fun _ => 0, fun _ => 0, fun _ => []⟩))) :=
  multiFlatRing_spec (by decide) ⟨fun _ => 0, fun _ => 0, fun _ => []⟩

end Built

end TorchComms.Algos.Topo
