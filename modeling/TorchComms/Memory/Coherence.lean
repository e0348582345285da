import TorchComms.Memory.CacheAllocator

/-! # What the calls of `memCacheAllocator` can do, and why they never fault

Each call is described once by the state changes it is made of. `Coherent` is what keeps
every stored region index valid and every free list that will be searched present.
-/
namespace TorchComms.Memory.MemCacheAllocator

open Foundation

variable {t t' t₁ : MemCacheAllocator}

/-! ### Reading back the state changes -/

theorem freeRegions_setFree (t : MemCacheAllocator) (b b' : BucketType) (s s' : ℕ) (ids : List ℕ) :
    (t.setFree b s ids).freeRegions b' s' =
      if b' = b ∧ s' = s ∧ (t.freeRegionMaps_ b).isSome then some ids
      else t.freeRegions b' s' := by
  unfold setFree freeRegions
  by_cases hb : b' = b
  · subst hb
    cases hm : t.freeRegionMaps_ b' with
    | none => simp
    | some m => by_cases hs : s' = s <;> simp [hs]
  · simp [hb]

theorem freeRegions_setFree_self {b : BucketType} {s : ℕ} {ids ids' : List ℕ}
    (h : t.freeRegions b s = some ids) : (t.setFree b s ids').freeRegions b s = some ids' := by
  have hsome : (t.freeRegionMaps_ b).isSome := by
    cases hm : t.freeRegionMaps_ b with
    | none => simp [freeRegions, hm] at h
    | some m => rfl
  rw [freeRegions_setFree, if_pos ⟨rfl, rfl, hsome⟩]

theorem freeRegions_setFree_ne {b b' : BucketType} {s s' : ℕ} {ids : List ℕ}
    (h : ¬ (b' = b ∧ s' = s)) : (t.setFree b s ids).freeRegions b' s' = t.freeRegions b' s' := by
  rw [freeRegions_setFree, if_neg fun hc => h ⟨hc.1, hc.2.1⟩]

theorem isSome_freeRegionMaps_setFree (t : MemCacheAllocator) (b b' : BucketType) (s : ℕ)
    (ids : List ℕ) :
    ((t.setFree b s ids).freeRegionMaps_ b').isSome = (t.freeRegionMaps_ b').isSome := by
  unfold setFree
  by_cases hb : b' = b
  · subst hb
    simp
  · simp [hb]

variable {bucket : BucketType} {r : MemRegion} {nBytes : ℕ}

theorem cachedRegion_eq_some {h id : ℕ} :
    t.cachedRegion h = some (id, r) ↔
      t.cachedRegionMap_.lookup h = some id ∧ t.allocatedRegions_[id]? = some r := by
  unfold cachedRegion
  cases t.cachedRegionMap_.lookup h with
  | none => simp
  | some id' =>
    simp only [Option.bind_some, Option.map_eq_some_iff, Prod.mk.injEq, Option.some.injEq]
    constructor
    · rintro ⟨r', hr', rfl, rfl⟩
      exact ⟨rfl, hr'⟩
    · rintro ⟨rfl, hr⟩
      exact ⟨r, hr, rfl, rfl⟩

theorem lookup_remember (t : MemCacheAllocator) (h h' id : ℕ) :
    (t.remember h id).cachedRegionMap_.lookup h' =
      if h' = h then some id else t.cachedRegionMap_.lookup h' := by
  unfold remember
  split_ifs with heq
  · subst heq
    exact AList.lookup_insert _
  · exact AList.lookup_insert_ne heq

theorem getElem?_modifyRegion (t : MemCacheAllocator) (id j : ℕ) (f : MemRegion → MemRegion) :
    (t.modifyRegion id f).allocatedRegions_[j]? =
      if id = j then (t.allocatedRegions_[j]?).map f else t.allocatedRegions_[j]? := by
  simp only [modifyRegion, List.getElem?_modify]
  split_ifs <;> cases t.allocatedRegions_[j]? <;> rfl

theorem hold_addRegion (t : MemCacheAllocator) (r : MemRegion) (key : String) :
    (t.addRegion r).hold t.allocatedRegions_.length key =
      t.addRegion { r with ownerKey := key, refCnt := r.refCnt + 1 } := by
  simp only [hold, modifyRegion, addRegion]
  congr 1
  rw [List.modify_eq_take_cons_drop (by simp)]
  simp

/-! ### What each call does -/

/-- The two ways `createNewMemReg` makes a region. -/
inductive Creates (t : MemCacheAllocator) (nBytes : ℕ) (bucket : BucketType)
    (driver : Option Mapping) : MemRegion → MemCacheAllocator → Prop
  | pool (hptr : t.poolPtr_ ≠ 0) (hsize : nBytes ≤ t.poolRemainSize_) :
    Creates t nBytes bucket driver (t.poolRegion nBytes bucket)
      ((t.carvePool nBytes).addRegion (t.poolRegion nBytes bucket))
  | slab {a a' : SlabAllocator} {out : Allocation}
      (hpool : ¬ (t.poolPtr_ ≠ 0 ∧ nBytes ≤ t.poolRemainSize_)) (ha : t.slabAllocator_ = some a)
      (hout : a.cuMalloc nBytes driver = some (out, a')) :
    Creates t nBytes bucket driver ⟨out.ptr, nBytes, out.handle, kUnAssignedOwner, 0, bucket⟩
      ({ t with slabAllocator_ := some a' }.addRegion
        ⟨out.ptr, nBytes, out.handle, kUnAssignedOwner, 0, bucket⟩)

theorem Creates.appends {driver : Option Mapping} (h : t.Creates nBytes bucket driver r t₁) :
    r.refCnt = 0 ∧ ∃ s : MemCacheAllocator, t₁ = s.addRegion r ∧
      s.allocatedRegions_ = t.allocatedRegions_ ∧ (∀ b n, s.freeRegions b n = t.freeRegions b n) ∧
      s.cachedRegionMap_ = t.cachedRegionMap_ := by
  cases h with
  | pool _ _ => exact ⟨rfl, t.carvePool nBytes, rfl, rfl, fun _ _ => rfl, rfl⟩
  | slab _ _ _ =>
    exact ⟨rfl, { t with slabAllocator_ := some _ }, rfl, rfl, fun _ _ => rfl, rfl⟩

/-- Neither the cache nor a free list serves the request, so that a region is created. -/
def Misses (t : MemCacheAllocator) (hashKey : ℕ) (key : String) (nBytes : ℕ)
    (bucket : BucketType) (shared : Bool) : Prop :=
  t.usableRegion hashKey key = none ∧
    (shared = true → (t.freeRegions bucket (roundUp nBytes kMinAlignSize)).getD [] = [])

instance (t : MemCacheAllocator) (hashKey : ℕ) (key : String) (nBytes : ℕ)
    (bucket : BucketType) (shared : Bool) :
    Decidable (t.Misses hashKey key nBytes bucket shared) :=
  inferInstanceAs (Decidable (_ ∧ _))

/-- The region a call takes hold of, with the state in which it does. -/
inductive Selects (t : MemCacheAllocator) (hashKey : ℕ) (key : String) (nBytes : ℕ)
    (bucket : BucketType) (shared : Bool) (driver : Option Mapping) :
    ℕ → MemRegion → MemCacheAllocator → Prop
  | busy {id : ℕ} {r : MemRegion} (hc : t.cachedRegion hashKey = some (id, r))
      (hbusy : r.refCnt ≠ 0) (howner : r.ownerKey = key) :
    Selects t hashKey key nBytes bucket shared driver id r t
  | idle {id : ℕ} {r : MemRegion} {ids : List ℕ} (hc : t.cachedRegion hashKey = some (id, r))
      (hidle : r.refCnt = 0) (hfree : t.freeRegions r.bucket r.size = some ids) :
    Selects t hashKey key nBytes bucket shared driver id r (t.setFree r.bucket r.size (ids.erase id))
  | reused {id : ℕ} {r : MemRegion} {ids : List ℕ} (hnone : t.usableRegion hashKey key = none)
      (hfree : t.freeRegions bucket (roundUp nBytes kMinAlignSize) = some (id :: ids))
      (hr : t.allocatedRegions_[id]? = some r) (hptr : r.ptr ≠ 0) :
    Selects t hashKey key nBytes bucket shared driver id r
      (t.setFree bucket (roundUp nBytes kMinAlignSize) ids)
  | created {r : MemRegion} {t₁ : MemCacheAllocator}
      (hmiss : t.Misses hashKey key nBytes bucket shared)
      (hnew : t.Creates nBytes bucket driver r t₁) (hptr : r.ptr ≠ 0) :
    Selects t hashKey key nBytes bucket shared driver t.allocatedRegions_.length r t₁

theorem usableRegion_eq_some {h id : ℕ} {key : String} :
    t.usableRegion h key = some (id, r) ↔
      t.cachedRegion h = some (id, r) ∧ (r.refCnt = 0 ∨ r.ownerKey = key) := by
  simp [usableRegion, Option.filter_eq_some_iff, isRegionUsable]

variable {shared : Bool} {id : ℕ}

theorem freeMemReg_ok (h : t.freeMemReg id r = .ok t₁) :
    ∃ ids, t.freeRegions r.bucket r.size = some ids ∧
      t₁ = t.setFree r.bucket r.size (ids.erase id) := by
  unfold freeMemReg at h
  split at h
  · cases h
  · rename_i ids hids
    cases h
    exact ⟨ids, hids, rfl⟩

theorem getFreeMemReg_ok {nBytes id : ℕ}
    (h : t.getFreeMemReg nBytes bucket shared = .ok (some (id, t₁))) :
    ∃ ids, t.freeRegions bucket nBytes = some (id :: ids) ∧ t₁ = t.setFree bucket nBytes ids := by
  unfold getFreeMemReg at h
  split at h
  · cases h
  · rename_i m hm
    split at h
    · rename_i id' ids hids
      split_ifs at h
      · cases h
        exact ⟨ids, by simp [freeRegions, hm, hids], rfl⟩
      · cases h
    · cases h

theorem getFreeMemReg_none
    (h : t.getFreeMemReg nBytes bucket shared = .ok none) (hshared : shared = true) :
    (t.freeRegions bucket nBytes).getD [] = [] := by
  subst hshared
  unfold getFreeMemReg at h
  unfold freeRegions
  split at h
  · cases h
  · rename_i m hm
    rw [hm, Option.bind_some]
    split at h
    · cases h
    · rename_i hne
      cases hl : m nBytes with
      | none => rfl
      | some ids =>
        cases ids with
        | nil => rfl
        | cons id ids => exact absurd hl (hne id ids)

theorem createNewMemReg_ok {driver : Option Mapping}
    (h : t.createNewMemReg nBytes bucket driver = .ok (some (r, t₁))) :
    t.Creates nBytes bucket driver r t₁ := by
  unfold createNewMemReg at h
  split_ifs at h with hpool
  · cases h
    exact .pool hpool.1 hpool.2
  · split at h
    · cases h
    · rename_i a ha
      split at h
      · cases h
      · rename_i out a' hout
        cases h
        exact .slab hpool ha hout

variable {genHash : String → ℕ} {reply : Reply}

/-- `getCachedCuMemById` throws, refuses a null region, or hands out the region it selected. -/
theorem get_cases {key : String} {driver : Option Mapping}
    (h : t.getCachedCuMemById genHash key nBytes bucket shared driver = .ok (reply, t')) :
    (reply = .thrown ∧ t' = t) ∨
    (reply = .failure .commInvalidArgument ∧
      ((∃ r, t.Misses (genHash key) key nBytes bucket shared ∧
          t.Creates nBytes bucket driver r t' ∧ r.ptr = 0) ∨
        ∃ id ids r, t.freeRegions bucket (roundUp nBytes kMinAlignSize) = some (id :: ids) ∧
          t.allocatedRegions_[id]? = some r ∧ r.ptr = 0)) ∨
    ∃ id r t₁, t.Selects (genHash key) key nBytes bucket shared driver id r t₁ ∧
      reply = .buffer r.ptr r.cuHandle ∧ t' = (t₁.hold id key).remember (genHash key) id := by
  unfold getCachedCuMemById at h
  simp only at h
  split at h
  · rename_i id r hcached
    obtain ⟨hc, huse⟩ := usableRegion_eq_some.mp hcached
    split_ifs at h with hzero
    · split at h
      · cases h
      · rename_i t₁ hfree
        obtain ⟨ids, hids, rfl⟩ := freeMemReg_ok hfree
        cases h
        exact .inr (.inr ⟨id, r, _, .idle hc hzero hids, rfl, rfl⟩)
    · cases h
      exact .inr (.inr ⟨id, r, t, .busy hc hzero (huse.resolve_left hzero), rfl, rfl⟩)
  · rename_i hnone
    split at h
    · cases h
    · rename_i id t₁ hpop
      obtain ⟨ids, hids, rfl⟩ := getFreeMemReg_ok hpop
      split at h
      · cases h
      · rename_i r hr
        split_ifs at h with hptr
        · cases h
          exact .inr (.inl ⟨rfl, .inr ⟨id, ids, r, hids, hr, hptr⟩⟩)
        · cases h
          exact .inr (.inr ⟨id, r, _, .reused hnone hids hr hptr, rfl, rfl⟩)
    · rename_i hempty
      have hmiss : t.Misses (genHash key) key nBytes bucket shared :=
        ⟨hnone, getFreeMemReg_none hempty⟩
      split at h
      · cases h
      · cases h
        exact .inl ⟨rfl, rfl⟩
      · rename_i r t₁ hnew
        have hcreate := createNewMemReg_ok hnew
        split_ifs at h with hptr
        · cases h
          exact .inr (.inl ⟨rfl, .inl ⟨r, hmiss, hcreate, hptr⟩⟩)
        · cases h
          exact .inr (.inr ⟨_, r, t₁, .created hmiss hcreate hptr, rfl, rfl⟩)

theorem reserve_cases {key : String} (h : t.reserve genHash key = .ok (reply, t')) :
    ((∃ res, reply = .failure res) ∧ t' = t) ∨
    ∃ id r t₁, t.Selects (genHash key) key 0 .DEFAULT false none id r t₁ ∧
      t.cachedRegion (genHash key) = some (id, r) ∧ reply = .success ∧ t' = t₁.hold id key := by
  unfold reserve at h
  split at h
  · cases h
    exact .inl ⟨⟨_, rfl⟩, rfl⟩
  · rename_i id r hc
    split_ifs at h with huse hzero
    · cases h
      exact .inl ⟨⟨_, rfl⟩, rfl⟩
    · split at h
      · cases h
      · rename_i t₁ hfree
        obtain ⟨ids, hids, rfl⟩ := freeMemReg_ok hfree
        cases h
        exact .inr ⟨id, r, _, .idle hc hzero hids, hc, rfl, rfl⟩
    · cases h
      have howner : r.ownerKey = key := by simpa [isRegionUsable, hzero] using huse
      exact .inr ⟨id, r, t, .busy hc hzero howner, hc, rfl, rfl⟩

theorem unhold_cases (h : t.unhold id r = .ok t') :
    (r.refCnt = 1 ∧ (t.freeRegionMaps_ r.bucket).isSome ∧ t' = (t.setFree r.bucket r.size
        ((t.freeRegions r.bucket r.size).getD [] ++ [id])).modifyRegion id
          fun r => { r with ownerKey := kUnAssignedOwner, refCnt := 0 }) ∨
    (r.refCnt ≠ 1 ∧ t' = t.modifyRegion id fun r => { r with refCnt := r.refCnt - 1 }) := by
  unfold unhold at h
  split_ifs at h with hone
  · split at h
    · cases h
    · rename_i m hm
      cases h
      refine .inl ⟨hone, by simp [hm], ?_⟩
      simp [freeRegions, hm, setFree, modifyRegion]
  · cases h
    exact .inr ⟨hone, rfl⟩

/-! ### Coherence -/

structure Coherent (t : MemCacheAllocator) : Prop where
  cached : ∀ h id, t.cachedRegionMap_.lookup h = some id →
    ∃ r : MemRegion, t.allocatedRegions_[id]? = some r ∧ r.ptr ≠ 0
  free : ∀ b s ids id, t.freeRegions b s = some ids → id ∈ ids →
    ∃ r : MemRegion, t.allocatedRegions_[id]? = some r ∧ r.ptr ≠ 0
  parked : ∀ (id : ℕ) (r : MemRegion), t.allocatedRegions_[id]? = some r → r.refCnt = 0 → r.ptr ≠ 0 →
    (t.freeRegions r.bucket r.size).isSome
  ready : t.intialized_ → t.slabAllocator_.isSome ∧ ∀ b, (t.freeRegionMaps_ b).isSome
  closed : t.intialized_ = false → t.allocatedRegions_ = [] ∧ t.cachedRegionMap_ = ∅

theorem coherent_fresh : Coherent fresh where
  cached h id hid := by simp [fresh] at hid
  free b s ids id hids := by simp [freeRegions, fresh] at hids
  parked id r hr := by simp [fresh] at hr
  ready h := by simp [fresh] at h
  closed _ := ⟨rfl, rfl⟩

theorem coherent_of_no_regions (hregions : t.allocatedRegions_ = [])
    (hcached : t.cachedRegionMap_ = ∅) (hfree : ∀ b s, t.freeRegions b s = none)
    (hready : t.intialized_ → t.slabAllocator_.isSome ∧ ∀ b, (t.freeRegionMaps_ b).isSome) :
    Coherent t where
  cached h id hid := by simp [hcached] at hid
  free b s ids id hids := by simp [hfree] at hids
  parked id r hr := by simp [hregions] at hr
  ready := hready
  closed _ := ⟨hregions, hcached⟩

/-- Every cached or free region survives a change that keeps addresses, sizes and buckets. -/
def Keeps (t t' : MemCacheAllocator) : Prop :=
  ∀ (id : ℕ) (r : MemRegion), t.allocatedRegions_[id]? = some r →
    ∃ r' : MemRegion, t'.allocatedRegions_[id]? = some r' ∧ r'.ptr = r.ptr ∧
      r'.size = r.size ∧ r'.bucket = r.bucket

theorem keeps_addRegion (t : MemCacheAllocator) (r : MemRegion) : Keeps t (t.addRegion r) := by
  intro id r' hr'
  obtain ⟨hlt, _⟩ := List.getElem?_eq_some_iff.mp hr'
  exact ⟨r', by simp [addRegion, List.getElem?_append_left hlt, hr'], rfl, rfl, rfl⟩

theorem keeps_modifyRegion {f : MemRegion → MemRegion} (id : ℕ)
    (hf : ∀ r, (f r).ptr = r.ptr ∧ (f r).size = r.size ∧ (f r).bucket = r.bucket) :
    Keeps t (t.modifyRegion id f) := by
  intro j r hr
  rw [getElem?_modifyRegion, hr]
  split_ifs
  · exact ⟨f r, rfl, hf r⟩
  · exact ⟨r, rfl, rfl, rfl, rfl⟩

theorem Keeps.ptr_ne_zero (hk : Keeps t t')
    (h : ∃ r : MemRegion, t.allocatedRegions_[id]? = some r ∧ r.ptr ≠ 0) :
    ∃ r, t'.allocatedRegions_[id]? = some r ∧ r.ptr ≠ 0 := by
  obtain ⟨r, hr, hptr⟩ := h
  obtain ⟨r', hr', heq, _⟩ := hk id r hr
  exact ⟨r', hr', by rwa [heq]⟩

section Preservation

variable (hc : Coherent t)
include hc

theorem Coherent.intialized {id : ℕ} {r : MemRegion} (hr : t.allocatedRegions_[id]? = some r) :
    t.intialized_ = true := by
  by_contra hinit
  have hnil := (hc.closed (by simpa using hinit)).1
  simp [hnil] at hr

theorem Coherent.setFree {b : BucketType} {s : ℕ} {ids : List ℕ}
    (hids : ∀ id ∈ ids, ∃ r : MemRegion, t.allocatedRegions_[id]? = some r ∧ r.ptr ≠ 0) :
    Coherent (t.setFree b s ids) where
  __ := hc
  free b' s' ids' id h hid := by
    rw [freeRegions_setFree] at h
    split_ifs at h
    · cases h
      exact hids id hid
    · exact hc.free b' s' ids' id h hid
  parked id r hr hzero hptr := by
    rw [freeRegions_setFree]
    split_ifs
    · rfl
    · exact hc.parked id r hr hzero hptr
  ready h := ⟨(hc.ready h).1, fun b' => by
    rw [isSome_freeRegionMaps_setFree]
    exact (hc.ready h).2 b'⟩

theorem Coherent.modifyRegion {f : MemRegion → MemRegion} {id : ℕ}
    (hf : ∀ r, (f r).ptr = r.ptr ∧ (f r).size = r.size ∧ (f r).bucket = r.bucket)
    (hzero : ∀ r, t.allocatedRegions_[id]? = some r → (f r).refCnt = 0 →
      (t.freeRegions r.bucket r.size).isSome) : Coherent (t.modifyRegion id f) where
  cached h id' hid := (keeps_modifyRegion id hf).ptr_ne_zero (hc.cached h id' hid)
  free b s ids id' hids hid := (keeps_modifyRegion id hf).ptr_ne_zero (hc.free b s ids id' hids hid)
  parked id' r hr hcnt hptr := by
    rw [getElem?_modifyRegion] at hr
    split_ifs at hr with heq
    · obtain ⟨r₀, hr₀, rfl⟩ := Option.map_eq_some_iff.mp hr
      rw [(hf r₀).2.1, (hf r₀).2.2]
      exact hzero r₀ (heq ▸ hr₀) hcnt
    · exact hc.parked id' r hr hcnt hptr
  ready := hc.ready
  closed h := ⟨by simp [MemCacheAllocator.modifyRegion, (hc.closed h).1], (hc.closed h).2⟩

theorem Coherent.hold (id : ℕ) (key : String) : Coherent (t.hold id key) :=
  hc.modifyRegion (fun _ => ⟨rfl, rfl, rfl⟩) fun _ _ h => absurd h (Nat.succ_ne_zero _)

theorem Coherent.remember {id : ℕ} (h : ℕ)
    (hid : ∃ r : MemRegion, t.allocatedRegions_[id]? = some r ∧ r.ptr ≠ 0) : Coherent (t.remember h id) where
  cached h' id' hl := by
    rw [lookup_remember] at hl
    split_ifs at hl
    · cases hl
      exact hid
    · exact hc.cached h' id' hl
  __ := hc
  closed hinit := by
    obtain ⟨r, hr, _⟩ := hid
    exact absurd ((hc.intialized hr).symm.trans hinit) (by decide)

theorem Coherent.addRegion {r : MemRegion} (hinit : t.intialized_ = true)
    (hr : r.refCnt = 0 → r.ptr = 0) : Coherent (t.addRegion r) where
  cached h id hid := (keeps_addRegion t r).ptr_ne_zero (hc.cached h id hid)
  free b s ids id hids hid := (keeps_addRegion t r).ptr_ne_zero (hc.free b s ids id hids hid)
  parked id r' hr' hcnt hptr := by
    simp only [MemCacheAllocator.addRegion, List.getElem?_append] at hr'
    split_ifs at hr' with hlt
    · exact hc.parked id r' hr' hcnt hptr
    · rw [List.getElem?_singleton] at hr'
      split_ifs at hr'
      cases hr'
      exact absurd (hr hcnt) hptr
  ready := hc.ready
  closed h := by
    rw [show t.intialized_ = false from h] at hinit
    cases hinit

theorem Coherent.withSlab {a : SlabAllocator} : Coherent { t with slabAllocator_ := some a } where
  __ := hc
  ready h := ⟨rfl, (hc.ready h).2⟩

theorem Coherent.carvePool (nBytes : ℕ) : Coherent (t.carvePool nBytes) where
  __ := hc

variable {driver : Option Mapping} {key : String}

section

variable (hinit : t.intialized_ = true)
include hinit

theorem Coherent.selects {h nBytes id : ℕ} {bucket : BucketType} {shared : Bool} {r : MemRegion}
    (hs : t.Selects h key nBytes bucket shared driver id r t₁) :
    Coherent (t₁.hold id key) ∧
      ∃ r', (t₁.hold id key).allocatedRegions_[id]? = some r' ∧ r'.ptr = r.ptr ∧ r.ptr ≠ 0 := by
  have hheld {s : MemCacheAllocator} (hr : s.allocatedRegions_[id]? = some r) (hp : r.ptr ≠ 0) :
      ∃ r', (s.hold id key).allocatedRegions_[id]? = some r' ∧ r'.ptr = r.ptr ∧ r.ptr ≠ 0 := by
    rw [MemCacheAllocator.hold, getElem?_modifyRegion, if_pos rfl, hr]
    exact ⟨_, rfl, rfl, hp⟩
  have hcached (hcr : t.cachedRegion h = some (id, r)) :
      t.allocatedRegions_[id]? = some r ∧ r.ptr ≠ 0 := by
    obtain ⟨hl, hr⟩ := cachedRegion_eq_some.mp hcr
    obtain ⟨r', hr', hptr⟩ := hc.cached h id hl
    rw [hr] at hr'
    cases hr'
    exact ⟨hr, hptr⟩
  cases hs with
  | busy hcr _ _ => exact ⟨hc.hold id key, hheld (hcached hcr).1 (hcached hcr).2⟩
  | idle hcr _ hfree =>
    refine ⟨Coherent.hold (hc.setFree fun j hj => ?_) id key,
      hheld (hcached hcr).1 (hcached hcr).2⟩
    exact hc.free _ _ _ j hfree (List.mem_of_mem_erase hj)
  | reused _ hfree hr hptr =>
    refine ⟨Coherent.hold (hc.setFree fun j hj => ?_) id key, hheld hr hptr⟩
    exact hc.free _ _ _ j hfree (List.mem_cons_of_mem _ hj)
  | created _ hnew hptr =>
    cases hnew with
    | pool _ _ =>
      refine ⟨?_, hheld (by simp [MemCacheAllocator.addRegion, MemCacheAllocator.carvePool])
        hptr⟩
      have hadd := hold_addRegion (t.carvePool nBytes) (t.poolRegion nBytes bucket) key
      simp only [MemCacheAllocator.carvePool] at hadd ⊢
      rw [hadd]
      exact (hc.carvePool nBytes).addRegion hinit fun hz => absurd hz (Nat.succ_ne_zero _)
    | slab _ ha _ =>
      refine ⟨?_, hheld (by simp [MemCacheAllocator.addRegion]) hptr⟩
      rw [hold_addRegion { t with slabAllocator_ := some _ }]
      exact hc.withSlab.addRegion hinit fun hz => absurd hz (Nat.succ_ne_zero _)

theorem Coherent.creates {nBytes : ℕ} {bucket : BucketType}
    {r : MemRegion} (hnew : t.Creates nBytes bucket driver r t₁)
    (hptr : r.ptr = 0) : Coherent t₁ := by
  cases hnew with
  | pool _ _ => exact (hc.carvePool nBytes).addRegion hinit fun _ => hptr
  | slab _ _ _ => exact hc.withSlab.addRegion hinit fun _ => hptr

theorem Coherent.getCachedCuMemById {genHash : String → ℕ} {nBytes : ℕ}
    {bucket : BucketType} {shared : Bool} {reply : Reply}
    (h : t.getCachedCuMemById genHash key nBytes bucket shared driver = .ok (reply, t')) :
    Coherent t' := by
  rcases get_cases h with ⟨_, rfl⟩ | ⟨_, ⟨r, _, hnew, hptr⟩ | ⟨id, ids, r, hids, hr, hptr⟩⟩ |
    ⟨id, r, t₁, hs, _, rfl⟩
  · exact hc
  · exact hc.creates hinit hnew hptr
  · obtain ⟨r', hr', hne⟩ := hc.free _ _ _ id hids (List.mem_cons_self ..)
    rw [hr] at hr'
    cases hr'
    exact absurd hptr hne
  · obtain ⟨hcoh, r', hr', heq, hne⟩ := hc.selects hinit hs
    exact hcoh.remember _ ⟨r', hr', by rwa [heq]⟩

end

theorem Coherent.reserve {genHash : String → ℕ} {reply : Reply}
    (h : t.reserve genHash key = .ok (reply, t')) : Coherent t' := by
  rcases reserve_cases h with ⟨_, rfl⟩ | ⟨id, r, t₁, hs, hcr, _, rfl⟩
  · exact hc
  · exact (hc.selects (hc.intialized (cachedRegion_eq_some.mp hcr).2) hs).1

theorem Coherent.unhold {h id : ℕ} {r : MemRegion} (hcr : t.cachedRegion h = some (id, r))
    (hbusy : r.refCnt ≠ 0) : ∃ t', t.unhold id r = .ok t' ∧ Coherent t' := by
  obtain ⟨hl, hr⟩ := cachedRegion_eq_some.mp hcr
  have hid := hc.cached h id hl
  obtain ⟨m, hm⟩ := Option.isSome_iff_exists.mp ((hc.ready (hc.intialized hr)).2 r.bucket)
  have hok : ∃ t', t.unhold id r = .ok t' := by
    unfold MemCacheAllocator.unhold
    simp only [hm]
    split_ifs <;> exact ⟨_, rfl⟩
  obtain ⟨t', ht'⟩ := hok
  refine ⟨t', ht', ?_⟩
  rcases unhold_cases ht' with ⟨_, _, rfl⟩ | ⟨hne, rfl⟩
  · refine Coherent.modifyRegion (hc.setFree ?_) (fun _ => ⟨rfl, rfl, rfl⟩) ?_
    · intro j hj
      rcases List.mem_append.mp hj with hj | hj
      · cases hfree : t.freeRegions r.bucket r.size with
        | none => simp [hfree] at hj
        | some ids => exact hc.free _ _ ids j hfree (by simpa [hfree] using hj)
      · rw [List.mem_singleton.mp hj]
        exact hid
    · intro r' hr' _
      change t.allocatedRegions_[id]? = some r' at hr'
      rw [hr] at hr'
      cases hr'
      rw [freeRegions_setFree, if_pos ⟨rfl, rfl, by simp [hm]⟩]
      rfl
  · refine hc.modifyRegion (fun _ => ⟨rfl, rfl, rfl⟩) fun r' hr' hz => ?_
    rw [hr] at hr'
    cases hr'
    simp only at hz
    omega

theorem Coherent.getCachedCuMemById_total (genHash : String → ℕ) {nBytes : ℕ}
    {bucket : BucketType} {shared : Bool} (hinit : t.intialized_ = true) :
    ∃ reply t', t.getCachedCuMemById genHash key nBytes bucket shared driver =
      .ok (reply, t') := by
  obtain ⟨hslab, hbuckets⟩ := hc.ready hinit
  obtain ⟨a, ha⟩ := Option.isSome_iff_exists.mp hslab
  obtain ⟨m, hm⟩ := Option.isSome_iff_exists.mp (hbuckets bucket)
  unfold MemCacheAllocator.getCachedCuMemById
  simp only
  split
  · rename_i id r hcached
    obtain ⟨hcr, _⟩ := usableRegion_eq_some.mp hcached
    obtain ⟨hl, hr⟩ := cachedRegion_eq_some.mp hcr
    obtain ⟨r', hr', hptr⟩ := hc.cached _ id hl
    rw [hr] at hr'
    cases hr'
    split_ifs with hzero
    · obtain ⟨ids, hids⟩ := Option.isSome_iff_exists.mp (hc.parked id r hr hzero hptr)
      simp only [freeMemReg, hids]
      exact ⟨_, _, rfl⟩
    · exact ⟨_, _, rfl⟩
  · split
    · rename_i f hf
      simp only [getFreeMemReg, hm] at hf
      split at hf
      · split_ifs at hf
      · cases hf
    · rename_i id t₁ hpop
      obtain ⟨ids, hids, rfl⟩ := getFreeMemReg_ok hpop
      obtain ⟨r, hr, hptr⟩ := hc.free _ _ _ id hids (List.mem_cons_self ..)
      simp only [MemCacheAllocator.setFree, hr]
      rw [if_neg hptr]
      exact ⟨_, _, rfl⟩
    · split
      · rename_i f hf
        simp only [createNewMemReg, ha] at hf
        split_ifs at hf
        split at hf <;> cases hf
      · exact ⟨_, _, rfl⟩
      · split_ifs <;> exact ⟨_, _, rfl⟩

theorem Coherent.reserve_total (genHash : String → ℕ) (key : String) :
    ∃ reply t', t.reserve genHash key = .ok (reply, t') := by
  unfold MemCacheAllocator.reserve
  split
  · exact ⟨_, _, rfl⟩
  · rename_i id r hcr
    obtain ⟨hl, hr⟩ := cachedRegion_eq_some.mp hcr
    obtain ⟨r', hr', hptr⟩ := hc.cached _ id hl
    rw [hr] at hr'
    cases hr'
    split_ifs with huse hzero
    · exact ⟨_, _, rfl⟩
    · obtain ⟨ids, hids⟩ := Option.isSome_iff_exists.mp (hc.parked id r hr hzero hptr)
      simp only [freeMemReg, hids]
      exact ⟨_, _, rfl⟩
    · exact ⟨_, _, rfl⟩

theorem Coherent.release_induction (genHash : String → ℕ) (keys : List String)
    (P : MemCacheAllocator → Prop) (hP : P t)
    (hstep : ∀ s s' key id r, Coherent s → P s → key ∈ keys →
      s.cachedRegion (genHash key) = some (id, r) → r.refCnt ≠ 0 → s.unhold id r = .ok s' → P s') :
    ∃ reply t', t.release genHash keys = .ok (reply, t') ∧ Coherent t' ∧ P t' := by
  induction keys generalizing t with
  | nil => exact ⟨_, _, rfl, hc, hP⟩
  | cons key keys ih =>
    simp only [MemCacheAllocator.release]
    split
    · exact ⟨_, _, rfl, hc, hP⟩
    · rename_i id r hcr
      split_ifs with hzero
      · exact ⟨_, _, rfl, hc, hP⟩
      · obtain ⟨t₁, ht₁, hc₁⟩ := hc.unhold hcr hzero
        simp only [ht₁]
        exact ih hc₁ (hstep t t₁ key id r hc hP (List.mem_cons_self ..) hcr hzero ht₁)
          fun s s' k i q hs hp hk => hstep s s' k i q hs hp (List.mem_cons_of_mem _ hk)

theorem Coherent.reset : Coherent t.reset.2 := by
  unfold MemCacheAllocator.reset
  split_ifs
  · exact hc
  · exact coherent_of_no_regions rfl rfl (fun _ _ => rfl) (by simp [clear])
  · exact hc

theorem Coherent.init (poolSize granularity : ℕ) (driver : Option Mapping) :
    Coherent (t.init poolSize granularity driver).2 := by
  unfold MemCacheAllocator.init
  split_ifs with hinit hpool
  · exact hc
  · obtain ⟨hregions, hcached⟩ := hc.closed (by simpa using hinit)
    simp only
    split
    · exact coherent_of_no_regions hregions hcached (fun _ _ => rfl) (fun _ => ⟨rfl, fun _ => rfl⟩)
    · exact coherent_of_no_regions hregions hcached (fun _ _ => rfl) (fun _ => ⟨rfl, fun _ => rfl⟩)
  · obtain ⟨hregions, hcached⟩ := hc.closed (by simpa using hinit)
    exact coherent_of_no_regions hregions hcached (fun _ _ => rfl) (fun _ => ⟨rfl, fun _ => rfl⟩)

end Preservation

/-- Only `getCachedCuMemById` needs an open session. -/
def SessionOpen (t : MemCacheAllocator) : Op → Prop
  | .getCachedCuMemById .. => t.intialized_ = true
  | _ => True

theorem Coherent.step {op : Op} (hc : Coherent t) (genHash : String → ℕ) (hop : t.SessionOpen op) :
    ∃ reply t', t.step genHash op = .ok (reply, t') ∧ Coherent t' := by
  cases op with
  | init poolSize granularity driver => exact ⟨_, _, rfl, hc.init poolSize granularity driver⟩
  | getCachedCuMemById key nBytes bucket shared driver =>
    obtain ⟨reply, t', h⟩ := hc.getCachedCuMemById_total genHash hop
    exact ⟨reply, t', h, hc.getCachedCuMemById hop h⟩
  | reserve key =>
    obtain ⟨reply, t', h⟩ := hc.reserve_total genHash key
    exact ⟨reply, t', h, hc.reserve h⟩
  | release keys =>
    obtain ⟨reply, t', h, hcoh, _⟩ := hc.release_induction genHash keys
      (fun _ => True) trivial fun _ _ _ _ _ _ _ _ _ _ _ => trivial
    exact ⟨reply, t', h, hcoh⟩
  | reset => exact ⟨_, _, rfl, hc.reset⟩

end TorchComms.Memory.MemCacheAllocator
