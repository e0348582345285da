import TorchComms.Memory.Coherence

/-! # Who owns the regions of `memCacheAllocator`

The ledger of outstanding acquisitions is computed from the calls and their replies alone. A
region in use belongs to one key, whose acquisitions it counts; a region not in use is in one
free list. Both hold along every run whose erroneous releases are refused at their first key.
-/
namespace TorchComms.Memory.MemCacheAllocator

open Foundation

/-! ### The ledger -/

/-- Outstanding acquisitions after releasing the keys in order, up to the first idle one. -/
def releaseAll (held : String → ℕ) : List String → String → ℕ
  | [] => held
  | key :: keys =>
    if held key = 0 then held
    else releaseAll (Function.update held key (held key - 1)) keys

def heldStep (held : String → ℕ) : Op × Reply → String → ℕ
  | (.getCachedCuMemById key _ _ _ _, .buffer _ _) => Function.update held key (held key + 1)
  | (.reserve key, .success) => Function.update held key (held key + 1)
  | (.release keys, _) => releaseAll held keys
  | _ => held

/-- The outstanding successful acquisitions of each key. -/
def held (log : List (Op × Reply)) : String → ℕ := log.foldl heldStep fun _ => 0

theorem held_concat (log : List (Op × Reply)) (e : Op × Reply) :
    held (log ++ [e]) = heldStep (held log) e := by
  simp [held]

/-! ### The ownership invariant -/

variable {genHash : String → ℕ} {used : String → Prop} {t t' : MemCacheAllocator}
  {H : String → ℕ} {out : Option ℕ}

/-- `out` is a region on its way to a new owner: idle, and in no free list. -/
structure Owned (genHash : String → ℕ) (used : String → Prop) (H : String → ℕ)
    (out : Option ℕ) (t : MemCacheAllocator) : Prop where
  nodup : ∀ b s ids, t.freeRegions b s = some ids → ids.Nodup
  freeIdle : ∀ b s ids id, t.freeRegions b s = some ids → id ∈ ids → out ≠ some id ∧
    ∃ r, t.allocatedRegions_[id]? = some r ∧ r.refCnt = 0 ∧ r.bucket = b ∧ r.size = s
  idleFree : ∀ (id : ℕ) (r : MemRegion), t.allocatedRegions_[id]? = some r → r.refCnt = 0 →
    r.ptr ≠ 0 → out ≠ some id → ∃ ids, t.freeRegions r.bucket r.size = some ids ∧ id ∈ ids
  busy : ∀ (id : ℕ) (r : MemRegion), t.allocatedRegions_[id]? = some r → r.refCnt ≠ 0 →
    used r.ownerKey ∧ t.cachedRegionMap_.lookup (genHash r.ownerKey) = some id ∧
      H r.ownerKey = r.refCnt
  holder : ∀ k, H k ≠ 0 → used k ∧ ∃ id r, t.cachedRegion (genHash k) = some (id, r) ∧
    r.ownerKey = k ∧ r.refCnt ≠ 0
  transit : ∀ id, out = some id → ∃ r, t.allocatedRegions_[id]? = some r ∧ r.refCnt = 0

theorem owned_fresh : Owned genHash used (fun _ => 0) none fresh where
  nodup b s ids h := by simp [freeRegions, fresh] at h
  freeIdle b s ids id h := by simp [freeRegions, fresh] at h
  idleFree id r h := by simp [fresh] at h
  busy id r h := by simp [fresh] at h
  holder k h := absurd rfl h
  transit id h := by cases h

namespace Owned

variable (ho : Owned genHash used H out t)
include ho

theorem held_eq_zero {k : String}
    (h : ∀ id r, t.cachedRegion (genHash k) = some (id, r) → r.refCnt = 0 ∨ r.ownerKey ≠ k) :
    H k = 0 := by
  by_contra hne
  obtain ⟨_, id, r, hc, howner, hbusy⟩ := ho.holder k hne
  rcases h id r hc with hz | hn
  · exact hbusy hz
  · exact hn howner

theorem detach {b : BucketType} {s id : ℕ} {r : MemRegion} {ids ids' : List ℕ}
    (hfree : t.freeRegions b s = some ids) (hr : t.allocatedRegions_[id]? = some r)
    (hb : r.bucket = b) (hs : r.size = s) (hzero : r.refCnt = 0) (hnot : id ∉ ids')
    (hsub : List.Sublist ids' ids) (hrest : ∀ j ∈ ids, j ≠ id → j ∈ ids') (hout : out = none) :
    Owned genHash used H (some id) (t.setFree b s ids') where
  nodup b' s' js h := by
    by_cases hkey : b' = b ∧ s' = s
    · obtain ⟨rfl, rfl⟩ := hkey
      rw [freeRegions_setFree_self hfree] at h
      cases h
      exact (ho.nodup _ _ ids hfree).sublist hsub
    · rw [freeRegions_setFree_ne hkey] at h
      exact ho.nodup b' s' js h
  freeIdle b' s' js j h hj := by
    by_cases hkey : b' = b ∧ s' = s
    · obtain ⟨rfl, rfl⟩ := hkey
      rw [freeRegions_setFree_self hfree] at h
      cases h
      refine ⟨fun heq => hnot ?_, (ho.freeIdle _ _ ids j hfree (hsub.subset hj)).2⟩
      cases heq
      exact hj
    · rw [freeRegions_setFree_ne hkey] at h
      obtain ⟨_, r', hr', hz', hb', hs'⟩ := ho.freeIdle b' s' js j h hj
      refine ⟨fun heq => hkey ?_, r', hr', hz', hb', hs'⟩
      cases heq
      rw [hr] at hr'
      cases hr'
      exact ⟨hb'.symm.trans hb, hs'.symm.trans hs⟩
  idleFree j r' hr' hz' hp' hne := by
    obtain ⟨js, hjs, hj⟩ := ho.idleFree j r' hr' hz' hp' (by simp [hout])
    by_cases hkey : r'.bucket = b ∧ r'.size = s
    · refine ⟨ids', ?_, hrest j ?_ fun heq => hne (heq ▸ rfl)⟩
      · rw [hkey.1, hkey.2]
        exact freeRegions_setFree_self hfree
      · rw [hkey.1, hkey.2, hfree] at hjs
        cases hjs
        exact hj
    · exact ⟨js, by rw [freeRegions_setFree_ne hkey]; exact hjs, hj⟩
  __ := ho
  transit j hj := by
    cases hj
    exact ⟨r, hr, hzero⟩

/-- A new region is in transit until it is held, unless its pointer is null. -/
theorem addRegion {r : MemRegion} (hzero : r.refCnt = 0) (hout : out = none) (out' : Option ℕ)
    (hout' : out' = some t.allocatedRegions_.length ∨ out' = none ∧ r.ptr = 0) :
    Owned genHash used H out' (t.addRegion r) := by
  have hold {j : ℕ} {r' : MemRegion} (hr' : t.allocatedRegions_[j]? = some r') :
      (t.addRegion r).allocatedRegions_[j]? = some r' ∧ j < t.allocatedRegions_.length := by
    obtain ⟨hlt, _⟩ := List.getElem?_eq_some_iff.mp hr'
    exact ⟨by simp [MemCacheAllocator.addRegion, List.getElem?_append_left hlt, hr'], hlt⟩
  have hnew {j : ℕ} {r' : MemRegion} (hr' : (t.addRegion r).allocatedRegions_[j]? = some r') :
      t.allocatedRegions_[j]? = some r' ∨ j = t.allocatedRegions_.length ∧ r' = r := by
    simp only [MemCacheAllocator.addRegion, List.getElem?_append] at hr'
    split_ifs at hr' with hlt
    · exact .inl hr'
    · rw [List.getElem?_singleton] at hr'
      split_ifs at hr' with hz
      cases hr'
      exact .inr ⟨by omega, rfl⟩
  have hfresh {j : ℕ} (hlt : j < t.allocatedRegions_.length) : out' ≠ some j := by
    rintro rfl
    rcases hout' with heq | ⟨heq, _⟩
    · cases heq
      exact lt_irrefl _ hlt
    · cases heq
  refine ⟨ho.nodup, fun b s ids j h hj => ?_, fun j r' hr' hz hp hne => ?_,
    fun j r' hr' hb => ?_, fun k hk => ?_, fun j hj => ?_⟩
  · obtain ⟨_, r', hr', hrest⟩ := ho.freeIdle b s ids j h hj
    exact ⟨hfresh (hold hr').2, r', (hold hr').1, hrest⟩
  · rcases hnew hr' with hr' | ⟨rfl, rfl⟩
    · exact ho.idleFree j r' hr' hz hp (by simp [hout])
    · rcases hout' with heq | ⟨_, hptr⟩
      · exact absurd heq hne
      · exact absurd hptr hp
  · rcases hnew hr' with hr' | ⟨_, rfl⟩
    · exact ho.busy j r' hr' hb
    · exact absurd hzero hb
  · obtain ⟨hu, id, r', hc, hrest⟩ := ho.holder k hk
    obtain ⟨hl, hr'⟩ := cachedRegion_eq_some.mp hc
    exact ⟨hu, id, r', cachedRegion_eq_some.mpr ⟨hl, (hold hr').1⟩, hrest⟩
  · subst hj
    rcases hout' with heq | ⟨heq, _⟩
    · cases heq
      exact ⟨r, by simp [MemCacheAllocator.addRegion], hzero⟩
    · cases heq

theorem of_eq (hregions : t'.allocatedRegions_ = t.allocatedRegions_)
    (hfree : ∀ b s, t'.freeRegions b s = t.freeRegions b s)
    (hcached : t'.cachedRegionMap_ = t.cachedRegionMap_) : Owned genHash used H out t' where
  nodup b s ids h := ho.nodup b s ids (hfree b s ▸ h)
  freeIdle b s ids id h hid := by
    rw [hregions]
    exact ho.freeIdle b s ids id (hfree b s ▸ h) hid
  idleFree id r hr hz hp hne := by
    rw [hregions] at hr
    rw [hfree]
    exact ho.idleFree id r hr hz hp hne
  busy id r hr hb := by
    rw [hregions] at hr
    rw [hcached]
    exact ho.busy id r hr hb
  holder k hk := by
    unfold cachedRegion
    rw [hregions, hcached]
    exact ho.holder k hk
  transit id hid := by
    rw [hregions]
    exact ho.transit id hid

theorem remember {k : String} {id : ℕ} (hinj : ∀ k', used k' → genHash k' = genHash k → k' = k)
    (hk : H k ≠ 0 → t.cachedRegionMap_.lookup (genHash k) = some id) :
    Owned genHash used H out (t.remember (genHash k) id) := by
  have hkeep {k' : String} (hu : used k') (hne : H k' ≠ 0) :
      (t.remember (genHash k) id).cachedRegionMap_.lookup (genHash k') =
        t.cachedRegionMap_.lookup (genHash k') := by
    rw [lookup_remember]
    split_ifs with heq
    · have hkk := hinj k' hu heq
      rw [hkk] at hne ⊢
      exact (hk hne).symm
    · rfl
  refine ⟨ho.nodup, ho.freeIdle, ho.idleFree, fun j r hr hb => ?_, fun k' hne => ?_, ho.transit⟩
  · obtain ⟨hu, hl, hH⟩ := ho.busy j r hr hb
    exact ⟨hu, (hkeep hu (by rwa [hH])).trans hl, hH⟩
  · obtain ⟨hu, j, r, hc, hrest⟩ := ho.holder k' hne
    obtain ⟨hl, hr⟩ := cachedRegion_eq_some.mp hc
    exact ⟨hu, j, r, cachedRegion_eq_some.mpr ⟨(hkeep hu hne).trans hl, hr⟩, hrest⟩

theorem hold {k : String} {id : ℕ} {r : MemRegion} (hr : t.allocatedRegions_[id]? = some r)
    (hl : t.cachedRegionMap_.lookup (genHash k) = some id) (hu : used k) (hH : H k = r.refCnt)
    (hcase : r.refCnt = 0 ∧ out = some id ∨ r.refCnt ≠ 0 ∧ r.ownerKey = k ∧ out = none) :
    Owned genHash used (Function.update H k (H k + 1)) none (t.hold id k) := by
  have hself : (t.hold id k).allocatedRegions_[id]? =
      some { r with ownerKey := k, refCnt := r.refCnt + 1 } := by
    rw [MemCacheAllocator.hold, getElem?_modifyRegion, if_pos rfl, hr]
    rfl
  have hother {j : ℕ} (hne : j ≠ id) :
      (t.hold id k).allocatedRegions_[j]? = t.allocatedRegions_[j]? := by
    rw [MemCacheAllocator.hold, getElem?_modifyRegion, if_neg hne.symm]
  refine ⟨ho.nodup, fun b s ids j h hj => ⟨by simp, ?_⟩, fun j r' hr' hz hp _ => ?_,
    fun j r' hr' hb => ?_, fun k' hne => ?_, by simp⟩
  · obtain ⟨hnot, r', hr', hidle⟩ := ho.freeIdle b s ids j h hj
    have hj : j ≠ id := by
      rintro rfl
      rcases hcase with ⟨_, hout⟩ | ⟨hbusy, _⟩
      · exact hnot hout
      · rw [hr] at hr'
        cases hr'
        exact hbusy hidle.1
    exact ⟨r', by rw [hother hj, hr'], hidle⟩
  · have hj : j ≠ id := by
      rintro rfl
      rw [hself] at hr'
      cases hr'
      exact Nat.succ_ne_zero _ hz
    rw [hother hj] at hr'
    refine ho.idleFree j r' hr' hz hp ?_
    rcases hcase with ⟨_, hout⟩ | ⟨_, _, hout⟩
    · rw [hout]
      exact fun heq => hj (Option.some.inj heq).symm
    · simp [hout]
  · by_cases hj : j = id
    · subst hj
      rw [hself] at hr'
      cases hr'
      exact ⟨hu, hl, by simp [hH]⟩
    · rw [hother hj] at hr'
      obtain ⟨hu', hl', hH'⟩ := ho.busy j r' hr' hb
      have hkey : r'.ownerKey ≠ k := by
        intro heq
        rw [heq, hl] at hl'
        exact hj (Option.some.inj hl').symm
      exact ⟨hu', hl', by rw [Function.update_of_ne hkey, hH']⟩
  · by_cases hkk : k' = k
    · subst hkk
      exact ⟨hu, id, _, cachedRegion_eq_some.mpr ⟨hl, hself⟩, rfl, Nat.succ_ne_zero _⟩
    · rw [Function.update_of_ne hkk] at hne
      obtain ⟨hu', j, r', hc, howner, hb⟩ := ho.holder k' hne
      obtain ⟨hl', hr'⟩ := cachedRegion_eq_some.mp hc
      have hj : j ≠ id := by
        rintro rfl
        rw [hr] at hr'
        cases hr'
        rcases hcase with ⟨hz, _⟩ | ⟨_, hown, _⟩
        · exact hb hz
        · exact hkk (howner.symm.trans hown)
      exact ⟨hu', j, r', cachedRegion_eq_some.mpr ⟨hl', by rw [hother hj, hr']⟩, howner, hb⟩

section

variable (hout : out = none)
include hout

theorem unhold {k : String} {id : ℕ} {r : MemRegion}
    (hc : t.cachedRegion (genHash k) = some (id, r)) (hbusy : r.refCnt ≠ 0)
    (howner : r.ownerKey = k) (h : t.unhold id r = .ok t') :
    Owned genHash used (Function.update H k (H k - 1)) none t' := by
  obtain ⟨hl, hr⟩ := cachedRegion_eq_some.mp hc
  obtain ⟨hu, _, hH⟩ := ho.busy id r hr hbusy
  rw [howner] at hu hH
  have hnotFree {b : BucketType} {s : ℕ} {ids : List ℕ} (hids : t.freeRegions b s = some ids) :
      id ∉ ids := by
    intro hid
    obtain ⟨_, r', hr', hz, _⟩ := ho.freeIdle b s ids id hids hid
    rw [hr] at hr'
    cases hr'
    exact hbusy hz
  have hkey {j : ℕ} {r' : MemRegion} (hj : j ≠ id) (hr' : t.allocatedRegions_[j]? = some r')
      (hb : r'.refCnt ≠ 0) : r'.ownerKey ≠ k := by
    intro heq
    obtain ⟨_, hl', _⟩ := ho.busy j r' hr' hb
    rw [heq, hl] at hl'
    exact hj (Option.some.inj hl').symm
  rcases unhold_cases h with ⟨hone, hbucket, rfl⟩ | ⟨hmany, rfl⟩
  · -- the last acquisition: the region goes back to its free list
    set ids := (t.freeRegions r.bucket r.size).getD [] with hids
    have hself : ∀ f, ((t.setFree r.bucket r.size (ids ++ [id])).modifyRegion id
        f).allocatedRegions_[id]? = some (f r) := by
      intro f
      rw [getElem?_modifyRegion, if_pos rfl]
      exact congrArg (Option.map f) hr
    have hother : ∀ f j, j ≠ id → ((t.setFree r.bucket r.size (ids ++ [id])).modifyRegion id
        f).allocatedRegions_[j]? = t.allocatedRegions_[j]? := by
      intro f j hne
      rw [getElem?_modifyRegion, if_neg hne.symm]
      rfl
    have hfree (b : BucketType) (s : ℕ) : ((t.setFree r.bucket r.size (ids ++ [id])).modifyRegion
        id fun r => { r with ownerKey := kUnAssignedOwner, refCnt := 0 }).freeRegions b s =
        if b = r.bucket ∧ s = r.size then some (ids ++ [id]) else t.freeRegions b s := by
      refine (freeRegions_setFree t _ _ _ _ _).trans ?_
      simp [hbucket]
    have hmem {j : ℕ} (hj : j ∈ ids) :
        t.freeRegions r.bucket r.size = some ids := by
      cases hopt : t.freeRegions r.bucket r.size with
      | none => simp [hids, hopt] at hj
      | some js => simp [hids, hopt]
    refine ⟨fun b s js hjs => ?_, fun b s js j hjs hj => ⟨by simp, ?_⟩,
      fun j r' hr' hz hp _ => ?_, fun j r' hr' hb => ?_, fun k' hne => ?_, by simp⟩
    · rw [hfree] at hjs
      split_ifs at hjs
      · cases hjs
        rw [List.nodup_append]
        refine ⟨?_, List.nodup_singleton _, fun x hx y hy heq => ?_⟩
        · cases hopt : t.freeRegions r.bucket r.size with
          | none => simp [hids, hopt]
          | some js =>
            rw [hids, hopt]
            exact ho.nodup _ _ js hopt
        · rw [List.mem_singleton.mp hy] at heq
          exact hnotFree (hmem hx) (heq ▸ hx)
      · exact ho.nodup b s js hjs
    · rw [hfree] at hjs
      by_cases hj' : j = id
      · subst hj'
        split_ifs at hjs with hkey'
        · exact ⟨_, hself _, rfl, hkey'.1.symm, hkey'.2.symm⟩
        · exact absurd hj (hnotFree hjs)
      · split_ifs at hjs with hkey'
        · cases hjs
          have hold : j ∈ ids := by simpa [hj'] using hj
          obtain ⟨_, r', hr', hz, hb, hs⟩ := ho.freeIdle _ _ _ j (hmem hold) hold
          exact ⟨r', by rw [hother _ j hj', hr'], hz, hb.trans hkey'.1.symm,
            hs.trans hkey'.2.symm⟩
        · obtain ⟨_, r', hr', hrest⟩ := ho.freeIdle b s js j hjs hj
          exact ⟨r', by rw [hother _ j hj', hr'], hrest⟩
    · rw [hfree]
      by_cases hj : j = id
      · subst hj
        rw [hself] at hr'
        cases hr'
        exact ⟨_, if_pos ⟨rfl, rfl⟩, by simp⟩
      · rw [hother _ j hj] at hr'
        obtain ⟨js, hjs, hmemj⟩ := ho.idleFree j r' hr' hz hp (by simp [hout])
        split_ifs with hkey'
        · refine ⟨_, rfl, List.mem_append_left _ ?_⟩
          rw [hids, ← hkey'.1, ← hkey'.2, hjs]
          exact hmemj
        · exact ⟨js, hjs, hmemj⟩
    · have hj : j ≠ id := by
        rintro rfl
        rw [hself] at hr'
        cases hr'
        exact hb rfl
      rw [hother _ j hj] at hr'
      obtain ⟨hu', hl', hH'⟩ := ho.busy j r' hr' hb
      exact ⟨hu', hl', by rw [Function.update_of_ne (hkey hj hr' hb), hH']⟩
    · have hkk : k' ≠ k := by
        rintro rfl
        rw [Function.update_self, hH, hone] at hne
        exact hne rfl
      rw [Function.update_of_ne hkk] at hne
      obtain ⟨hu', j, r', hc', howner', hb'⟩ := ho.holder k' hne
      obtain ⟨hl', hr'⟩ := cachedRegion_eq_some.mp hc'
      have hj : j ≠ id := by
        rintro rfl
        rw [hr] at hr'
        cases hr'
        exact hkk (howner'.symm.trans howner)
      exact ⟨hu', j, r', cachedRegion_eq_some.mpr ⟨hl', by rw [hother _ j hj, hr']⟩, howner',
        hb'⟩
  · have hself : (t.modifyRegion id
        fun r => { r with refCnt := r.refCnt - 1 }).allocatedRegions_[id]? =
          some { r with refCnt := r.refCnt - 1 } := by
      rw [getElem?_modifyRegion, if_pos rfl, hr]
      rfl
    have hother {j : ℕ} (hne : j ≠ id) : (t.modifyRegion id
        fun r => { r with refCnt := r.refCnt - 1 }).allocatedRegions_[j]? =
          t.allocatedRegions_[j]? := by
      rw [getElem?_modifyRegion, if_neg hne.symm]
    have hleft : r.refCnt - 1 ≠ 0 := by omega
    refine ⟨ho.nodup, fun b s ids j hids hj => ⟨by simp, ?_⟩, fun j r' hr' hz hp _ => ?_,
      fun j r' hr' hb => ?_, fun k' hne => ?_, by simp⟩
    · obtain ⟨_, r', hr', hidle⟩ := ho.freeIdle b s ids j hids hj
      have hne : j ≠ id := fun heq => hnotFree hids (heq ▸ hj)
      exact ⟨r', by rw [hother hne, hr'], hidle⟩
    · have hne : j ≠ id := by
        rintro rfl
        rw [hself] at hr'
        cases hr'
        exact hleft hz
      rw [hother hne] at hr'
      exact ho.idleFree j r' hr' hz hp (by simp [hout])
    · by_cases hj : j = id
      · subst hj
        rw [hself] at hr'
        cases hr'
        simp only
        rw [howner]
        exact ⟨hu, hl, by rw [Function.update_self, hH]⟩
      · rw [hother hj] at hr'
        obtain ⟨hu', hl', hH'⟩ := ho.busy j r' hr' hb
        exact ⟨hu', hl', by rw [Function.update_of_ne (hkey hj hr' hb), hH']⟩
    · by_cases hkk : k' = k
      · subst hkk
        exact ⟨hu, id, _, cachedRegion_eq_some.mpr ⟨hl, hself⟩, howner, hleft⟩
      · rw [Function.update_of_ne hkk] at hne
        obtain ⟨hu', j, r', hc', howner', hb'⟩ := ho.holder k' hne
        obtain ⟨hl', hr'⟩ := cachedRegion_eq_some.mp hc'
        have hj : j ≠ id := by
          rintro rfl
          rw [hr] at hr'
          cases hr'
          exact hkk (howner'.symm.trans howner)
        exact ⟨hu', j, r', cachedRegion_eq_some.mpr ⟨hl', by rw [hother hj, hr']⟩, howner', hb'⟩

theorem selects {k : String} {nBytes id : ℕ} {bucket : BucketType} {shared : Bool}
    {driver : Option Mapping} {r : MemRegion} {t₁ : MemCacheAllocator}
    (hu : used k) (hinj : ∀ k', used k' → genHash k' = genHash k → k' = k)
    (hs : t.Selects (genHash k) k nBytes bucket shared driver id r t₁) :
    Owned genHash used (Function.update H k (H k + 1)) none
      ((t₁.hold id k).remember (genHash k) id) := by
  change Owned genHash used _ none ((t₁.remember (genHash k) id).hold id k)
  have hlook (s : MemCacheAllocator) :
      (s.remember (genHash k) id).cachedRegionMap_.lookup (genHash k) = some id := by
    rw [lookup_remember, if_pos rfl]
  subst hout
  have hmiss (hnone : t.usableRegion (genHash k) k = none) : H k = 0 := by
    refine ho.held_eq_zero fun j r' hc => ?_
    by_contra hcon
    rw [not_or, not_not] at hcon
    rw [usableRegion_eq_some.mpr ⟨hc, .inr hcon.2⟩] at hnone
    cases hnone
  have harrive {r : MemRegion} {s : MemCacheAllocator} (hs : Owned genHash used H (some id) s)
      (hr : s.allocatedRegions_[id]? = some r) (hz : r.refCnt = 0) (hH : H k = 0) :
      Owned genHash used (Function.update H k (H k + 1)) none
        ((s.remember (genHash k) id).hold id k) :=
    (hs.remember hinj fun hne => absurd hH hne).hold hr (hlook s) hu (hH.trans hz.symm)
      (.inl ⟨hz, rfl⟩)
  cases hs with
  | busy hc hbusy howner =>
    obtain ⟨hl, hr⟩ := cachedRegion_eq_some.mp hc
    have hH := (ho.busy id r hr hbusy).2.2
    rw [howner] at hH
    exact (ho.remember hinj fun _ => hl).hold hr (hlook t) hu hH (.inr ⟨hbusy, howner, rfl⟩)
  | @idle _ _ ids hc hidle hfree =>
    obtain ⟨_, hr⟩ := cachedRegion_eq_some.mp hc
    have hH : H k = 0 := by
      refine ho.held_eq_zero fun j r' hc' => .inl ?_
      rw [hc] at hc'
      cases hc'
      exact hidle
    have hnodup := ho.nodup _ _ _ hfree
    refine harrive (ho.detach hfree hr rfl rfl hidle hnodup.not_mem_erase List.erase_sublist
      (fun j hj hne => ?_) rfl) hr hidle hH
    exact (List.mem_erase_of_ne hne).mpr hj
  | @reused _ _ ids hnone hfree hr _ =>
    obtain ⟨_, r', hr', hidle, hb, hs⟩ := ho.freeIdle _ _ _ id hfree (List.mem_cons_self ..)
    rw [hr] at hr'
    cases hr'
    have hnodup := ho.nodup _ _ _ hfree
    refine harrive (ho.detach hfree hr hb hs hidle (List.nodup_cons.mp hnodup).1
      (List.sublist_cons_self _ _) (fun j hj hne => ?_) rfl) hr hidle (hmiss hnone)
    exact (List.mem_cons.mp hj).resolve_left hne
  | created hmisses hnew _ =>
    obtain ⟨hzero, s, rfl, hregions, hfree, hcached⟩ := hnew.appends
    have hadd := (ho.of_eq hregions hfree hcached).addRegion hzero rfl _ (.inl rfl)
    rw [hregions] at hadd
    refine harrive hadd ?_ hzero (hmiss hmisses.1)
    rw [← hregions]
    simp [MemCacheAllocator.addRegion]

theorem creates {nBytes : ℕ} {bucket : BucketType} {driver : Option Mapping} {r : MemRegion}
    {t₁ : MemCacheAllocator} (hnew : t.Creates nBytes bucket driver r t₁)
    (hptr : r.ptr = 0) : Owned genHash used H none t₁ := by
  obtain ⟨hzero, s, rfl, hregions, hfree, hcached⟩ := hnew.appends
  exact (ho.of_eq hregions hfree hcached).addRegion hzero hout none (.inr ⟨rfl, hptr⟩)

theorem getCachedCuMemById {k : String} {nBytes : ℕ} {bucket : BucketType} {shared : Bool}
    {driver : Option Mapping} {reply : Reply} (hco : Coherent t)
    (hu : used k) (hinj : ∀ k', used k' → genHash k' = genHash k → k' = k)
    (h : t.getCachedCuMemById genHash k nBytes bucket shared driver = .ok (reply, t')) :
    Owned genHash used (heldStep H (.getCachedCuMemById k nBytes bucket shared driver, reply))
      none t' := by
  rcases get_cases h with ⟨rfl, rfl⟩ | ⟨rfl, ⟨r, _, hnew, hptr⟩ | ⟨id, ids, r, hids, hr, hptr⟩⟩ |
    ⟨id, r, t₁, hs, rfl, rfl⟩
  · exact hout ▸ ho
  · exact ho.creates hout hnew hptr
  · obtain ⟨r', hr', hne⟩ := hco.free _ _ _ id hids (List.mem_cons_self ..)
    rw [hr] at hr'
    cases hr'
    exact absurd hptr hne
  · exact ho.selects hout hu hinj hs

theorem reserve {k : String} {reply : Reply} (hu : used k)
    (hinj : ∀ k', used k' → genHash k' = genHash k → k' = k)
    (h : t.reserve genHash k = .ok (reply, t')) :
    Owned genHash used (heldStep H (.reserve k, reply)) none t' := by
  rcases reserve_cases h with ⟨⟨res, rfl⟩, rfl⟩ | ⟨id, r, t₁, hs, hc, rfl, rfl⟩
  · exact hout ▸ ho
  · have hsel := ho.selects hout hu hinj hs
    have hl := (cachedRegion_eq_some.mp hc).1
    have hsame : t₁.cachedRegionMap_.lookup (genHash k) = some id := by
      cases hs with
      | busy _ _ _ => exact hl
      | idle _ _ _ => exact hl
      | reused _ _ _ _ => exact hl
      | created _ hnew _ => cases hnew <;> exact hl
    refine ⟨hsel.nodup, hsel.freeIdle, hsel.idleFree, fun j r' hr' hb => ?_, fun k' hne => ?_,
      hsel.transit⟩
    · obtain ⟨hu', hl', hH'⟩ := hsel.busy j r' hr' hb
      rw [lookup_remember] at hl'
      refine ⟨hu', ?_, hH'⟩
      split_ifs at hl' with heq
      · rw [heq]
        exact hsame.trans hl'
      · exact hl'
    · obtain ⟨hu', j, r', hc', hrest⟩ := hsel.holder k' hne
      obtain ⟨hl', hr'⟩ := cachedRegion_eq_some.mp hc'
      rw [lookup_remember] at hl'
      refine ⟨hu', j, r', cachedRegion_eq_some.mpr ⟨?_, hr'⟩, hrest⟩
      split_ifs at hl' with heq
      · rw [heq]
        exact hsame.trans hl'
      · exact hl'

end

end Owned

/-! ### Releasing -/

/-- `key` currently holds its cached region. -/
def Holds (genHash : String → ℕ) (t : MemCacheAllocator) (key : String) : Prop :=
  ∃ c ∈ t.cachedRegion (genHash key), c.2.refCnt ≠ 0 ∧ c.2.ownerKey = key

/-- The first key is refused: it is not cached, or its cached region is idle. -/
def FirstRefused (genHash : String → ℕ) (t : MemCacheAllocator) : List String → Prop
  | [] => False
  | key :: _ => ∀ c ∈ t.cachedRegion (genHash key), c.2.refCnt = 0

theorem release_firstRefused {keys : List String} (h : t.FirstRefused genHash keys) :
    t.release genHash keys = .ok (.failure .commInvalidUsage, t) := by
  cases keys with
  | nil => exact h.elim
  | cons key keys =>
    simp only [release]
    cases hc : t.cachedRegion (genHash key) with
    | none => rfl
    | some c =>
      simp only
      rw [if_pos (h c hc)]

theorem Owned.holds_iff (ho : Owned genHash used H none t) {k : String} :
    t.Holds genHash k ↔ H k ≠ 0 := by
  constructor
  · rintro ⟨⟨id, r⟩, hc, hbusy, howner⟩
    obtain ⟨_, _, hH⟩ := ho.busy id r (cachedRegion_eq_some.mp hc).2 hbusy
    rw [← howner, hH]
    exact hbusy
  · intro hne
    obtain ⟨_, _, _, hc, howner, hbusy⟩ := ho.holder k hne
    exact ⟨_, hc, hbusy, howner⟩

/-- No listed key has a cached region that another key is using. -/
def Undisputed (genHash : String → ℕ) (t : MemCacheAllocator) (keys : List String) : Prop :=
  ∀ k ∈ keys, ∀ id r, t.cachedRegion (genHash k) = some (id, r) → r.refCnt ≠ 0 → r.ownerKey = k

theorem undisputed_unhold {keys : List String} {id : ℕ} {r : MemRegion}
    (h : t.Undisputed genHash keys) (hr : t.allocatedRegions_[id]? = some r)
    (hun : t.unhold id r = .ok t') : t'.Undisputed genHash keys := by
  intro k' hk' j r' hc hb
  obtain ⟨hl, hr'⟩ := cachedRegion_eq_some.mp hc
  have hback (f : MemRegion → MemRegion) (hmap : t'.cachedRegionMap_ = t.cachedRegionMap_)
      (hget : t'.allocatedRegions_ = t.allocatedRegions_.modify id f)
      (hf : (f r).refCnt ≠ 0 → (f r).ownerKey = r.ownerKey ∧ r.refCnt ≠ 0) :
      r'.ownerKey = k' := by
    rw [hmap] at hl
    rw [hget, List.getElem?_modify] at hr'
    by_cases hj : id = j
    · subst hj
      simp only [if_true, hr] at hr'
      cases hr'
      obtain ⟨hown, hne⟩ := hf hb
      exact hown.trans (h k' hk' id r (cachedRegion_eq_some.mpr ⟨hl, hr⟩) hne)
    · have hr₀ : t.allocatedRegions_[j]? = some r' := by
        simpa [hj] using hr'
      exact h k' hk' j r' (cachedRegion_eq_some.mpr ⟨hl, hr₀⟩) hb
  rcases unhold_cases hun with ⟨_, _, rfl⟩ | ⟨_, rfl⟩
  · exact hback _ rfl rfl fun hne => absurd rfl hne
  · exact hback _ rfl rfl fun hne => ⟨rfl, fun hz => hne (by simp [hz])⟩

/-- Releasing keys none of whose regions another key is using follows the ledger. -/
theorem Owned.release_undisputed {keys : List String} (ho : Owned genHash used H none t)
    (hco : Coherent t) (hun : t.Undisputed genHash keys) :
    ∃ reply t', t.release genHash keys = .ok (reply, t') ∧
      Owned genHash used (releaseAll H keys) none t' := by
  induction keys generalizing t H with
  | nil => exact ⟨_, _, rfl, ho⟩
  | cons key keys ih =>
    simp only [MemCacheAllocator.release, releaseAll]
    have hrefused (hfirst : ∀ c ∈ t.cachedRegion (genHash key), c.2.refCnt = 0) : H key = 0 :=
      ho.held_eq_zero fun id r hc => .inl (hfirst _ hc)
    cases hc : t.cachedRegion (genHash key) with
    | none =>
      rw [if_pos (hrefused (by simp [hc]))]
      exact ⟨_, _, rfl, ho⟩
    | some c =>
      obtain ⟨id, r⟩ := c
      simp only
      by_cases hz : r.refCnt = 0
      · rw [if_pos hz, if_pos (hrefused (by simp [hc, hz]))]
        exact ⟨_, _, rfl, ho⟩
      · have howner := hun key (List.mem_cons_self ..) id r hc hz
        have hr := (cachedRegion_eq_some.mp hc).2
        have hH : H key ≠ 0 := by
          have := (ho.busy id r hr hz).2.2
          rw [howner] at this
          rwa [this]
        obtain ⟨t₁, ht₁, hco₁⟩ := hco.unhold hc hz
        rw [if_neg hz, if_neg hH]
        simp only [ht₁]
        refine ih (ho.unhold rfl hc hz howner ht₁) hco₁ ?_
        exact undisputed_unhold (fun k hk => hun k (List.mem_cons_of_mem _ hk)) hr ht₁

theorem Owned.release {keys : List String} {reply : Reply} (ho : Owned genHash used H none t)
    (hco : Coherent t) (h : t.release genHash keys = .ok (reply, t'))
    (hkeys : (∀ k ∈ keys, t.Holds genHash k) ∨ t.FirstRefused genHash keys) :
    Owned genHash used (releaseAll H keys) none t' := by
  rcases hkeys with hall | hfirst
  · have hun : t.Undisputed genHash keys := by
      intro k hk id r hc _
      obtain ⟨c, hc', _, howner⟩ := hall k hk
      rw [hc] at hc'
      cases hc'
      exact howner
    obtain ⟨_, _, hok, ho'⟩ := ho.release_undisputed hco hun
    rw [h] at hok
    cases hok
    exact ho'
  · rw [release_firstRefused hfirst] at h
    cases h
    cases keys with
    | nil => exact hfirst.elim
    | cons key keys =>
      have hH : H key = 0 := ho.held_eq_zero fun id r hc => .inl (hfirst _ hc)
      rw [releaseAll, if_pos hH]
      exact ho

/-! ### Ownership along runs -/

/-- What the invariant says of regions, free lists and the ledger `H`. -/
structure Exclusive (genHash : String → ℕ) (H : String → ℕ) (t : MemCacheAllocator) : Prop where
  busyNotFree : ∀ (id : ℕ) (r : MemRegion), t.allocatedRegions_[id]? = some r → r.refCnt ≠ 0 →
    ∀ b s ids, t.freeRegions b s = some ids → id ∉ ids
  idleOnce : ∀ (id : ℕ) (r : MemRegion), t.allocatedRegions_[id]? = some r → r.refCnt = 0 →
    r.ptr ≠ 0 → (∃ ids, t.freeRegions r.bucket r.size = some ids ∧ ids.count id = 1) ∧
      ∀ b s ids, t.freeRegions b s = some ids → id ∈ ids → b = r.bucket ∧ s = r.size
  counted : ∀ (id : ℕ) (r : MemRegion), t.allocatedRegions_[id]? = some r → r.refCnt ≠ 0 →
    r.refCnt = H r.ownerKey
  holder : ∀ k, H k ≠ 0 → ∃ id r, t.cachedRegion (genHash k) = some (id, r) ∧ r.ownerKey = k ∧
    r.refCnt = H k
  sole : ∀ (id id' : ℕ) (r r' : MemRegion), t.allocatedRegions_[id]? = some r →
    t.allocatedRegions_[id']? = some r' → r.refCnt ≠ 0 → r'.refCnt ≠ 0 →
    r.ownerKey = r'.ownerKey → id = id'

theorem Owned.exclusive (ho : Owned genHash used H none t) : Exclusive genHash H t where
  busyNotFree id r hr hbusy b s ids hids hid := by
    obtain ⟨_, r', hr', hz, _⟩ := ho.freeIdle b s ids id hids hid
    rw [hr] at hr'
    cases hr'
    exact hbusy hz
  idleOnce id r hr hz hp := by
    obtain ⟨ids, hids, hid⟩ := ho.idleFree id r hr hz hp (by simp)
    refine ⟨⟨ids, hids, List.count_eq_one_of_mem (ho.nodup _ _ _ hids) hid⟩,
      fun b s js hjs hj => ?_⟩
    obtain ⟨_, r', hr', _, hb, hs⟩ := ho.freeIdle b s js id hjs hj
    rw [hr] at hr'
    cases hr'
    exact ⟨hb.symm, hs.symm⟩
  counted id r hr hbusy := (ho.busy id r hr hbusy).2.2.symm
  holder k hne := by
    obtain ⟨_, id, r, hc, howner, hbusy⟩ := ho.holder k hne
    have hH := (ho.busy id r (cachedRegion_eq_some.mp hc).2 hbusy).2.2
    exact ⟨id, r, hc, howner, by rw [← hH, howner]⟩
  sole id id' r r' hr hr' hb hb' heq := by
    have hl := (ho.busy id r hr hb).2.1
    have hl' := (ho.busy id' r' hr' hb').2.1
    rw [heq, hl'] at hl
    exact (Option.some.inj hl).symm

def Op.keys : Op → List String
  | .getCachedCuMemById key _ _ _ _ => [key]
  | .reserve key => [key]
  | .release keys => keys
  | _ => []

/-- The hashes of the keys used in a run do not collide. -/
def CollisionFree (genHash : String → ℕ) (ops : List Op) : Prop :=
  ∀ k ∈ ops.flatMap Op.keys, ∀ k' ∈ ops.flatMap Op.keys, genHash k' = genHash k → k' = k

/-- A release either names only keys that hold a region, or is refused at its first key. -/
def CleanRelease (genHash : String → ℕ) (t : MemCacheAllocator) : Op → Prop
  | .release keys => (∀ k ∈ keys, t.Holds genHash k) ∨ t.FirstRefused genHash keys
  | _ => True

/-- Calls of one session; any keys, sizes, buckets and driver answers. -/
def InSession (_ : List Op) (s : MemCacheAllocator × List (Op × Reply)) (op : Op) : Prop :=
  op ≠ .reset ∧ s.1.SessionOpen op

def CleanUse (genHash : String → ℕ) (past : List Op) (s : MemCacheAllocator × List (Op × Reply))
    (op : Op) : Prop :=
  InSession past s op ∧ s.1.CleanRelease genHash op

theorem Owned.step {op : Op} (ho : Owned genHash used H none t) (hco : Coherent t)
    (hreset : op ≠ .reset) (hopen : t.SessionOpen op) (hclean : t.CleanRelease genHash op)
    (hused : ∀ k ∈ op.keys, used k)
    (hinj : ∀ k k', used k → used k' → genHash k' = genHash k → k' = k) :
    ∃ reply t', t.step genHash op = .ok (reply, t') ∧ Coherent t' ∧
      Owned genHash used (heldStep H (op, reply)) none t' := by
  obtain ⟨reply, t', h, hco'⟩ := hco.step genHash hopen
  refine ⟨reply, t', h, hco', ?_⟩
  cases op with
  | init poolSize granularity driver =>
    have ht' : (t.init poolSize granularity driver).2 = t' :=
      congrArg Prod.snd (Except.ok.inj h)
    rw [← ht']
    unfold MemCacheAllocator.init
    split_ifs with hinit hpool
    · exact ho
    all_goals
      obtain ⟨hregions, hcached⟩ := hco.closed (by simpa using hinit)
      have hH : ∀ k, H k = 0 := fun k => ho.held_eq_zero (by simp [cachedRegion, hcached])
      have hempty (s : MemCacheAllocator) (hs : s.allocatedRegions_ = [])
          (hf : ∀ b n, s.freeRegions b n = none) : Owned genHash used H none s :=
        ⟨by simp [hf], by simp [hf], by simp [hs], by simp [hs],
          fun k hne => absurd (hH k) hne, by simp⟩
    · simp only
      split <;> exact hempty _ hregions fun _ _ => rfl
    · exact hempty _ hregions fun _ _ => rfl
  | getCachedCuMemById key nBytes bucket shared driver =>
    have hu := hused key (List.mem_singleton.mpr rfl)
    exact ho.getCachedCuMemById rfl hco hu (fun k' hu' => hinj key k' hu hu') h
  | reserve key =>
    have hu := hused key (List.mem_singleton.mpr rfl)
    exact ho.reserve rfl hu (fun k' hu' => hinj key k' hu hu') h
  | release keys => exact ho.release hco h hclean
  | reset => exact absurd rfl hreset

instance (genHash : String → ℕ) (t : MemCacheAllocator) (key : String) :
    Decidable (t.Holds genHash key) :=
  inferInstanceAs (Decidable (∃ c ∈ t.cachedRegion (genHash key), _ ∧ _))

instance (genHash : String → ℕ) (t : MemCacheAllocator) :
    ∀ keys, Decidable (t.FirstRefused genHash keys)
  | [] => isFalse id
  | key :: _ => inferInstanceAs (Decidable (∀ c ∈ t.cachedRegion (genHash key), _))

instance (t : MemCacheAllocator) : ∀ op, Decidable (t.SessionOpen op)
  | .getCachedCuMemById .. => inferInstanceAs (Decidable (t.intialized_ = true))
  | .init .. => isTrue trivial
  | .reserve _ => isTrue trivial
  | .release _ => isTrue trivial
  | .reset => isTrue trivial

instance (genHash : String → ℕ) (t : MemCacheAllocator) :
    ∀ op, Decidable (t.CleanRelease genHash op)
  | .release _ => inferInstanceAs (Decidable ((∀ k ∈ _, _) ∨ _))
  | .init .. => isTrue trivial
  | .getCachedCuMemById .. => isTrue trivial
  | .reserve _ => isTrue trivial
  | .reset => isTrue trivial

instance (past : List Op) (s : MemCacheAllocator × List (Op × Reply)) (op : Op) :
    Decidable (InSession past s op) :=
  inferInstanceAs (Decidable (_ ∧ _))

instance (genHash : String → ℕ) (past : List Op) (s : MemCacheAllocator × List (Op × Reply))
    (op : Op) : Decidable (CleanUse genHash past s op) :=
  inferInstanceAs (Decidable (_ ∧ _))

instance (genHash : String → ℕ) (ops : List Op) : Decidable (CollisionFree genHash ops) :=
  inferInstanceAs (Decidable (∀ k ∈ ops.flatMap Op.keys, ∀ k' ∈ ops.flatMap Op.keys, _))

/-- Along every run of one session whose erroneous releases are refused at their first key,
ownership is exclusive and matches the ledger, and a further release of that kind that names a
key without a region returns an error and changes nothing. -/
theorem exclusive_of_cleanUse (genHash : String → ℕ) (ops : List Op)
    (hhash : CollisionFree genHash ops)
    (hops : Admissible (logged (step genHash)) (CleanUse genHash) [] (fresh, []) ops) :
    ∃ t log, run (logged (step genHash)) (fresh, []) ops = .ok (t, log) ∧
      Exclusive genHash (held log) t ∧
      ∀ keys, t.CleanRelease genHash (.release keys) → (∃ k ∈ keys, held log k = 0) →
        ∃ res, t.release genHash keys = .ok (.failure res, t) := by
  obtain ⟨⟨t, log⟩, hrun, hco, ho⟩ := run_invariant
    (fun _ s => Coherent s.1 ∧
      Owned genHash (· ∈ ops.flatMap Op.keys) (held s.2) none s.1)
    (fun past s op hinv hop => by
      obtain ⟨⟨⟨hreset, hopen⟩, hclean⟩, hmem⟩ := hop
      obtain ⟨reply, t', h, hco', ho'⟩ := hinv.2.step hinv.1 hreset hopen hclean
        (fun k hk => List.mem_flatMap.mpr ⟨op, hmem, hk⟩) fun k k' hk hk' => hhash k hk k' hk'
      refine ⟨(t', s.2 ++ [(op, reply)]), by simp [logged, h, Except.map], hco', ?_⟩
      rw [held_concat]
      exact ho')
    ops ⟨coherent_fresh, owned_fresh⟩ (hops.and_mem fun _ h => h)
  refine ⟨t, log, hrun, ho.exclusive, fun keys hclean hbad => ?_⟩
  rcases hclean with hall | hfirst
  · obtain ⟨k, hk, hzero⟩ := hbad
    exact absurd hzero (ho.holds_iff.mp (hall k hk))
  · exact ⟨_, release_firstRefused hfirst⟩

/-- Two acquisitions, two releases, a refused third one, and a second key taking the region. -/
theorem exclusive_of_cleanUse_two_keys :
    ∃ t log, run (logged (step String.length)) (fresh, [])
        [.init 0 32 none, .getCachedCuMemById "a" 16 .DEFAULT true (some ⟨4096, 1⟩),
          .reserve "a", .release ["a", "a"], .release ["a"],
          .getCachedCuMemById "bb" 16 .DEFAULT true none] = .ok (t, log) ∧
      Exclusive String.length (held log) t ∧
      ∀ keys, t.CleanRelease String.length (.release keys) → (∃ k ∈ keys, held log k = 0) →
        ∃ res, t.release String.length keys = .ok (.failure res, t) :=
  exclusive_of_cleanUse String.length _ (by decide) (by decide)

/-- A second release by the old key takes the region away from its new owner: `release` looks
the region up by key and never checks the owner. -/
theorem not_exclusive_of_inSession :
    ¬ ∀ ops, CollisionFree String.length ops →
      Admissible (logged (step String.length)) InSession [] (fresh, []) ops →
      ∃ t log, run (logged (step String.length)) (fresh, []) ops = .ok (t, log) ∧
        Exclusive String.length (held log) t ∧
        ∀ keys, (∃ k ∈ keys, held log k = 0) →
          ∃ res, t.release String.length keys = .ok (.failure res, t) := by
  intro hall
  obtain ⟨t, log, hrun, _, hrefuse⟩ := hall
    [.init 0 32 none, .getCachedCuMemById "a" 16 .DEFAULT true (some ⟨4096, 1⟩), .release ["a"],
      .getCachedCuMemById "bb" 16 .DEFAULT true none] (by decide) (by decide)
  have haccepted : ((run (logged (step String.length)) (fresh, [])
      [.init 0 32 none, .getCachedCuMemById "a" 16 .DEFAULT true (some ⟨4096, 1⟩),
        .release ["a"], .getCachedCuMemById "bb" 16 .DEFAULT true none]).bind fun s =>
      (s.1.release String.length ["a"]).map fun p => (held s.2 "a", p.1)) =
      .ok (0, .success) := by decide
  rw [hrun] at haccepted
  simp only [Except.bind] at haccepted
  cases hrel : t.release String.length ["a"] with
  | error f =>
    rw [hrel] at haccepted
    cases haccepted
  | ok p =>
    simp only [hrel, Except.map, Except.ok.injEq, Prod.mk.injEq] at haccepted
    obtain ⟨res, hres⟩ := hrefuse ["a"] ⟨"a", List.mem_singleton.mpr rfl, haccepted.1⟩
    rw [hrel] at hres
    have hreply := haccepted.2
    rw [Except.ok.inj hres] at hreply
    cases hreply

end TorchComms.Memory.MemCacheAllocator
