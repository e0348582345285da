import TorchComms.Memory.SlabAllocator

/-! # The arena: two carvers over the same slabs

The abstract value of the allocator's memory: the ranges handed out, the pool cursor and the
slab allocator. A new range is the front of the pool, the front of the slab tail or the front
of a new slab. All ranges stay inside slabs; they stay apart as long as the tail is not carved
on the slab the pool was taken from.
-/
namespace TorchComms.Memory

open Foundation

structure Arena where
  regions : List Range
  pool : Range
  /-- The pool was taken from a slab of the current allocator. -/
  live : Prop
  allocator : Option SlabAllocator

namespace Arena

def slabs (A : Arena) : List Range := (A.allocator.map SlabAllocator.slabPtrs_).getD []

/-- The null range of a refused allocation, or a range inside some slab. -/
def Placed (slabs : List Range) (r : Range) : Prop :=
  (r.base = 0 ∧ r.size = 0) ∨ ∃ s ∈ slabs, s.Covers r

structure Contained (A : Arena) : Prop where
  regions : ∀ r ∈ A.regions, Placed A.slabs r
  pool : A.live → ∃ s ∈ A.slabs, s.Covers A.pool
  tail : ∀ a, A.allocator = some a → a.TailInSlab

/-- The tail belongs to the slab that the pool was taken from: both end where it ends. -/
def TailIsPool (A : Arena) (a : SlabAllocator) : Prop := A.live ∧ A.pool.stop = a.tail.stop

structure Separated (A : Arena) : Prop where
  regions : A.regions.Pairwise Range.Apart
  pool : A.live → ∀ r ∈ A.regions, r.Apart A.pool
  tail : ∀ a, A.allocator = some a → A.TailIsPool a ∨
    (∀ r ∈ A.regions, r.Apart a.tail) ∧ (A.live → A.pool.Apart a.tail)

def carvePool (A : Arena) (n : ℕ) : Arena :=
  { A with regions := A.regions ++ [A.pool.front n], pool := A.pool.rest n }

def carveSlab (A : Arena) (n : ℕ) (out : Allocation) (a' : SlabAllocator) : Arena :=
  { A with regions := A.regions ++ [⟨out.ptr, n⟩], allocator := some a' }

theorem Placed.mono {slabs slabs' : List Range} {r : Range} (h : Placed slabs r)
    (hsub : ∀ s ∈ slabs, s ∈ slabs') : Placed slabs' r := by
  rcases h with hnull | ⟨s, hs, hc⟩
  · exact .inl hnull
  · exact .inr ⟨s, hsub s hs, hc⟩

theorem Placed.apart {slabs : List Range} {r x : Range} (h : Placed slabs r)
    (hx : ∀ s ∈ slabs, s.Apart x) : r.Apart x := by
  rcases h with ⟨_, hsize⟩ | ⟨s, hs, hc⟩
  · exact .inl hsize
  · exact (hx s hs).of_covers hc

section Carving

variable {A : Arena}

theorem Contained.carvePool (hA : A.Contained) (hlive : A.live) {n : ℕ} (hn : n ≤ A.pool.size) :
    (A.carvePool n).Contained where
  regions r hr := by
    rcases List.mem_append.mp hr with hr | hr
    · exact hA.regions r hr
    · obtain ⟨s, hs, hc⟩ := hA.pool hlive
      rw [List.mem_singleton.mp hr]
      exact .inr ⟨s, hs, hc.trans (Range.covers_front le_rfl hn)⟩
  pool _ := by
    obtain ⟨s, hs, hc⟩ := hA.pool hlive
    exact ⟨s, hs, hc.trans (Range.covers_rest hn)⟩
  tail := hA.tail

theorem Separated.carvePool (hA : A.Separated) (hlive : A.live) {n : ℕ} (hn : n ≤ A.pool.size) :
    (A.carvePool n).Separated where
  regions := Range.pairwise_apart_concat hA.regions fun r hr =>
    ((hA.pool hlive r hr).symm.of_covers (Range.covers_front le_rfl hn)).symm
  pool _ r hr := by
    rcases List.mem_append.mp hr with hr | hr
    · exact ((hA.pool hlive r hr).symm.of_covers (Range.covers_rest hn)).symm
    · rw [List.mem_singleton.mp hr]
      exact Range.front_apart_rest le_rfl
  tail a ha := by
    rcases hA.tail a ha with ⟨_, hstop⟩ | ⟨hregions, hpool⟩
    · exact .inl ⟨hlive, (Range.stop_rest hn).trans hstop⟩
    · refine .inr ⟨fun r hr => ?_, fun _ => (hpool hlive).of_covers (Range.covers_rest hn)⟩
      rcases List.mem_append.mp hr with hr | hr
      · exact hregions r hr
      · rw [List.mem_singleton.mp hr]
        exact (hpool hlive).of_covers (Range.covers_front le_rfl hn)

variable {a a' : SlabAllocator} {out : Allocation} {n : ℕ} {driver : Option Mapping}
  (ha : A.allocator = some a) (hout : a.cuMalloc n driver = some (out, a')) (hfit : a.Fits n)
include ha hout hfit

theorem Contained.carveSlab (hA : A.Contained)
    (hfresh : ∀ m, driver = some m → a.Fresh (roundUp n kMinAlignSize) m) :
    (A.carveSlab n out a').Contained := by
  have hslabs : A.slabs = a.slabPtrs_ := by simp [slabs, ha]
  rcases SlabAllocator.cuMalloc_cases hout with ⟨hroom, hptr, _, hsl, htail⟩ |
    ⟨m, hm, hfull, hptr, _, hsl, htail⟩
  · have hsub : ∀ s ∈ A.slabs, s ∈ (A.carveSlab n out a').slabs := by
      intro s hs
      rw [hslabs] at hs
      simpa [Arena.carveSlab, slabs, hsl] using hs
    refine ⟨fun r hr => ?_, fun hlive => ?_, fun b hb => ?_⟩
    · rcases List.mem_append.mp hr with hr | hr
      · exact (hA.regions r hr).mono hsub
      · rw [List.mem_singleton.mp hr, hptr]
        rcases hA.tail a ha with ⟨hnull, hfree⟩ | ⟨_, s, hs, hc⟩
        · -- only an empty request is served before the first slab
          have hn := hfit.1
          exact .inl ⟨hnull, by simp only; omega⟩
        · have hfront := hc.trans (Range.covers_front hfit.1 hroom)
          exact .inr ⟨s, hsub s (hslabs ▸ hs), hfront⟩
    · obtain ⟨s, hs, hc⟩ := hA.pool hlive
      exact ⟨s, hsub s hs, hc⟩
    · cases hb
      rcases hA.tail a ha with ⟨hnull, hfree⟩ | ⟨hpos, s, hs, hc⟩
      · have hzero : roundUp n kMinAlignSize = 0 := by omega
        rw [hzero] at htail
        simp only [SlabAllocator.tail, Range.rest, Range.mk.injEq] at htail
        exact .inl ⟨by omega, by omega⟩
      · refine .inr ⟨?_, s, by rwa [hsl], ?_⟩
        · have hbase := congrArg Range.base htail
          simp only [SlabAllocator.tail, Range.rest] at hbase
          omega
        · rw [htail]
          exact hc.trans (Range.covers_rest hroom)
  · have hsub : ∀ s ∈ A.slabs, s ∈ (A.carveSlab n out a').slabs := by
      intro s hs
      rw [hslabs] at hs
      simp [Arena.carveSlab, slabs, hsl, hs]
    refine ⟨fun r hr => ?_, fun hlive => ?_, fun b hb => ?_⟩
    · rcases List.mem_append.mp hr with hr | hr
      · exact (hA.regions r hr).mono hsub
      · rw [List.mem_singleton.mp hr, hptr]
        refine .inr ⟨⟨m.ptr, a.slabSize (roundUp n kMinAlignSize)⟩, ?_, ?_⟩
        · simp [Arena.carveSlab, slabs, hsl]
        · exact Range.covers_front (le_trans hfit.1 hfit.2) le_rfl
    · obtain ⟨s, hs, hc⟩ := hA.pool hlive
      exact ⟨s, hsub s hs, hc⟩
    · cases hb
      have hbase := congrArg Range.base (htail hfit)
      simp only [SlabAllocator.tail, Range.rest] at hbase
      have hpos := (hfresh m hm).1
      refine .inr ⟨by omega, ⟨m.ptr, a.slabSize (roundUp n kMinAlignSize)⟩, by simp [hsl], ?_⟩
      rw [htail hfit]
      exact Range.covers_rest hfit.2

/-- Carving the slab allocator keeps ranges apart unless it takes bytes from the pool's slab. -/
theorem Separated.carveSlab (hA : A.Separated) (hC : A.Contained)
    (hfresh : ∀ m, driver = some m → a.Fresh (roundUp n kMinAlignSize) m)
    (htaken : roundUp n kMinAlignSize ≤ a.freeSize_ → A.TailIsPool a → n = 0) :
    (A.carveSlab n out a').Separated := by
  have hslabs : A.slabs = a.slabPtrs_ := by simp [slabs, ha]
  rcases SlabAllocator.cuMalloc_cases hout with ⟨hroom, hptr, _, hsl, htail⟩ |
    ⟨m, hm, hfull, hptr, _, hsl, htail⟩
  · rcases hA.tail a ha with hpoolTail | ⟨hregions, hpool⟩
    · -- the tail is the pool's: the request is empty and nothing moves
      have hzero := htaken hroom hpoolTail
      subst hzero
      have hrest : a'.tail.stop = a.tail.stop := by
        rw [htail]
        exact Range.stop_rest hroom
      refine ⟨Range.pairwise_apart_concat hA.regions fun r _ => Range.apart_of_empty rfl,
        fun hlive r hr => ?_, fun b hb => ?_⟩
      · rcases List.mem_append.mp hr with hr | hr
        · exact hA.pool hlive r hr
        · rw [List.mem_singleton.mp hr]
          exact .inl rfl
      · cases hb
        exact .inl ⟨hpoolTail.1, hpoolTail.2.trans hrest.symm⟩
    · have hfront : a.tail.Covers ⟨out.ptr, n⟩ := by
        rw [hptr]
        exact Range.covers_front hfit.1 hroom
      have hrest : a.tail.Covers a'.tail := by
        rw [htail]
        exact Range.covers_rest hroom
      refine ⟨Range.pairwise_apart_concat hA.regions fun r hr =>
        ((hregions r hr).symm.of_covers hfront).symm, fun hlive r hr => ?_, fun b hb => ?_⟩
      · rcases List.mem_append.mp hr with hr | hr
        · exact hA.pool hlive r hr
        · rw [List.mem_singleton.mp hr]
          exact (hpool hlive).symm.of_covers hfront
      · cases hb
        refine .inr ⟨fun r hr => ?_, fun hlive => ((hpool hlive).symm.of_covers hrest).symm⟩
        rcases List.mem_append.mp hr with hr | hr
        · exact ((hregions r hr).symm.of_covers hrest).symm
        · rw [List.mem_singleton.mp hr, hptr, htail]
          exact Range.front_apart_rest hfit.1
  · have hnew : ∀ s ∈ A.slabs, s.Apart ⟨m.ptr, a.slabSize (roundUp n kMinAlignSize)⟩ := by
      rw [hslabs]
      exact (hfresh m hm).2.2
    have hfront : Range.Covers ⟨m.ptr, a.slabSize (roundUp n kMinAlignSize)⟩ ⟨out.ptr, n⟩ := by
      rw [hptr]
      exact Range.covers_front (le_trans hfit.1 hfit.2) le_rfl
    have hrest : Range.Covers ⟨m.ptr, a.slabSize (roundUp n kMinAlignSize)⟩ a'.tail := by
      rw [htail hfit]
      exact Range.covers_rest hfit.2
    have hregions : ∀ r ∈ A.regions,
        r.Apart ⟨m.ptr, a.slabSize (roundUp n kMinAlignSize)⟩ :=
      fun r hr => (hC.regions r hr).apart hnew
    have hpool : A.live → A.pool.Apart ⟨m.ptr, a.slabSize (roundUp n kMinAlignSize)⟩ := by
      intro hlive
      obtain ⟨s, hs, hc⟩ := hC.pool hlive
      exact (hnew s hs).of_covers hc
    refine ⟨Range.pairwise_apart_concat hA.regions fun r hr =>
      ((hregions r hr).symm.of_covers hfront).symm, fun hlive r hr => ?_, fun b hb => ?_⟩
    · rcases List.mem_append.mp hr with hr | hr
      · exact hA.pool hlive r hr
      · rw [List.mem_singleton.mp hr]
        exact (hpool hlive).symm.of_covers hfront
    · cases hb
      refine .inr ⟨fun r hr => ?_, fun hlive => ((hpool hlive).symm.of_covers hrest).symm⟩
      rcases List.mem_append.mp hr with hr | hr
      · exact ((hregions r hr).symm.of_covers hrest).symm
      · rw [List.mem_singleton.mp hr, htail hfit, hptr]
        exact Range.front_apart_rest hfit.1

end Carving

theorem contained_of_empty {A : Arena} (hregions : A.regions = []) (hlive : ¬ A.live)
    (hallocator : ∀ a, A.allocator = some a → a.TailInSlab) : A.Contained where
  regions := by simp [hregions]
  pool h := absurd h hlive
  tail := hallocator

theorem separated_of_empty {A : Arena} (hregions : A.regions = []) (hlive : ¬ A.live) :
    A.Separated where
  regions := by simp [hregions]
  pool h := absurd h hlive
  tail _ _ := .inr ⟨by simp [hregions], fun h => absurd h hlive⟩

end Arena
end TorchComms.Memory
