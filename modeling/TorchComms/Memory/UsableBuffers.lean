import TorchComms.Memory.Ownership

/-! # Whether a buffer is usable for the request

The pool is cut by the raw size of a request, the slabs by the aligned one; the free lists are
searched for the aligned size and hold regions under the raw one. So the regions stay aligned as
long as only multiples of the alignment are cut from the pool, and which region a request gets
decides whether it fits.
-/
namespace TorchComms.Memory.MemCacheAllocator

open Foundation

variable {t t' t₁ : MemCacheAllocator}

/-- A released region that was created for this size and bucket waits in its free list. -/
def HasFree (t : MemCacheAllocator) (nBytes : ℕ) (bucket : BucketType) : Prop :=
  ∃ id ∈ (t.freeRegions bucket nBytes).getD [],
    (t.allocatedRegions_[id]?).any (fun r => r.size = nBytes ∧ r.bucket = bucket) = true

instance (t : MemCacheAllocator) (nBytes : ℕ) (bucket : BucketType) :
    Decidable (t.HasFree nBytes bucket) :=
  inferInstanceAs (Decidable (∃ id ∈ _, _))

/-- What a request can ask of the buffer at `ptr` that it gets. -/
structure Usable (t t' : MemCacheAllocator) (hashKey nBytes : ℕ) (bucket : BucketType)
    (shared : Bool) (ptr : ℕ) : Prop where
  /-- The key now stands for a region of that address, large enough and in the bucket. -/
  region : ∃ id r, t'.cachedRegion hashKey = some (id, r) ∧ r.ptr = ptr ∧ nBytes ≤ r.size ∧
    r.bucket = bucket
  aligned : kMinAlignSize ∣ ptr
  /-- A free region for the request is not left aside for a new one. -/
  noNew : shared = true → t.HasFree nBytes bucket →
    t'.allocatedRegions_.length = t.allocatedRegions_.length

/-- A usable cached region is as large as the request and in its bucket, a region from a free list
is as large; a region is created only where none of the raw size is free. -/
def Fits (t : MemCacheAllocator) (hashKey : ℕ) (key : String) (nBytes : ℕ) (bucket : BucketType)
    (shared : Bool) : Prop :=
  match t.usableRegion hashKey key with
  | some (_, r) => nBytes ≤ r.size ∧ r.bucket = bucket
  | none =>
    if t.Misses hashKey key nBytes bucket shared then ¬ (shared = true ∧ t.HasFree nBytes bucket)
    else nBytes ≤ roundUp nBytes kMinAlignSize

instance (t : MemCacheAllocator) (hashKey : ℕ) (key : String) (nBytes : ℕ) (bucket : BucketType)
    (shared : Bool) : Decidable (t.Fits hashKey key nBytes bucket shared) := by
  unfold Fits
  split <;> infer_instance

/-- The driver maps slabs at aligned addresses. -/
def AlignedDriver (driver : Option Mapping) : Prop := ∀ m ∈ driver, kMinAlignSize ∣ m.ptr

instance (driver : Option Mapping) : Decidable (AlignedDriver driver) :=
  match driver with
  | none => isTrue (by simp [AlignedDriver])
  | some m => decidable_of_iff (kMinAlignSize ∣ m.ptr) (by simp [AlignedDriver])

/-- A request that is cut from the pool is a multiple of the alignment. -/
def CutsAligned (genHash : String → ℕ) (t : MemCacheAllocator) : Op → Prop
  | .init _ _ driver => AlignedDriver driver
  | .getCachedCuMemById key nBytes bucket shared driver =>
    AlignedDriver driver ∧
      (t.Misses (genHash key) key nBytes bucket shared → t.poolPtr_ ≠ 0 →
        nBytes ≤ t.poolRemainSize_ → kMinAlignSize ∣ nBytes)
  | _ => True

instance (genHash : String → ℕ) (t : MemCacheAllocator) :
    (op : Op) → Decidable (t.CutsAligned genHash op)
  | .init _ _ driver => inferInstanceAs (Decidable (AlignedDriver driver))
  | .getCachedCuMemById _ _ _ _ driver =>
    inferInstanceAs (Decidable (AlignedDriver driver ∧ (_ → _ → _ → _)))
  | .reserve _ | .release _ | .reset => inferInstanceAs (Decidable True)

/-- A session is open where it has to be, and the pool is cut into aligned pieces. -/
def AlignedUse (genHash : String → ℕ) (_ : List Op) (t : MemCacheAllocator) (op : Op) : Prop :=
  t.SessionOpen op ∧ t.CutsAligned genHash op

instance (genHash : String → ℕ) (past : List Op) (t : MemCacheAllocator) (op : Op) :
    Decidable (AlignedUse genHash past t op) := inferInstanceAs (Decidable (_ ∧ _))

/-! ### Regions, pool and slabs stay aligned -/

/-- The cursors and the regions are aligned, and a free list holds regions of its own size. -/
structure Tidy (t : MemCacheAllocator) : Prop where
  regions : ∀ (id : ℕ) (r : MemRegion), t.allocatedRegions_[id]? = some r → kMinAlignSize ∣ r.ptr
  pool : kMinAlignSize ∣ t.poolPtr_
  slab : ∀ a, t.slabAllocator_ = some a → kMinAlignSize ∣ a.startPtr_
  free : ∀ b s ids id, t.freeRegions b s = some ids → id ∈ ids →
    ∃ r : MemRegion, t.allocatedRegions_[id]? = some r ∧ r.bucket = b ∧ r.size = s

theorem tidy_fresh : Tidy fresh where
  regions id r h := by simp [fresh] at h
  pool := Nat.dvd_zero _
  slab a h := by simp [fresh] at h
  free b s ids id h := by simp [freeRegions, fresh] at h

theorem dvd_roundUp (n : ℕ) : kMinAlignSize ∣ roundUp n kMinAlignSize := by
  unfold roundUp kMinAlignSize
  omega

theorem cuMalloc_aligned {a a' : SlabAllocator} {nBytes : ℕ} {driver : Option Mapping}
    {out : Allocation} (ha : kMinAlignSize ∣ a.startPtr_) (hdriver : AlignedDriver driver)
    (h : a.cuMalloc nBytes driver = some (out, a')) :
    kMinAlignSize ∣ out.ptr ∧ kMinAlignSize ∣ a'.startPtr_ := by
  have hsize := dvd_roundUp nBytes
  unfold SlabAllocator.cuMalloc SlabAllocator.allocateMem at h
  split_ifs at h
  · cases driver with
    | none => cases h
    | some m =>
      cases h
      have hm : kMinAlignSize ∣ m.ptr := hdriver m rfl
      exact ⟨hm, Nat.dvd_add hm hsize⟩
  · cases h
    exact ⟨ha, Nat.dvd_add ha hsize⟩

namespace Tidy

variable (ht : Tidy t)
include ht

theorem setFree {b : BucketType} {s : ℕ} {ids : List ℕ}
    (hids : ∀ id ∈ ids, ∃ r : MemRegion, t.allocatedRegions_[id]? = some r ∧
      r.bucket = b ∧ r.size = s) : Tidy (t.setFree b s ids) where
  __ := ht
  free b' s' js id h hid := by
    rw [freeRegions_setFree] at h
    split_ifs at h with hkey
    · cases h
      rw [hkey.1, hkey.2.1]
      exact hids id hid
    · exact ht.free b' s' js id h hid

theorem modifyRegion {f : MemRegion → MemRegion} (id : ℕ)
    (hf : ∀ r, (f r).ptr = r.ptr ∧ (f r).size = r.size ∧ (f r).bucket = r.bucket) :
    Tidy (t.modifyRegion id f) where
  regions j r hr := by
    rw [getElem?_modifyRegion] at hr
    split_ifs at hr
    · obtain ⟨r₀, hr₀, rfl⟩ := Option.map_eq_some_iff.mp hr
      rw [(hf r₀).1]
      exact ht.regions j r₀ hr₀
    · exact ht.regions j r hr
  __ := ht
  free b s ids j h hj := by
    obtain ⟨r, hr, hb, hs⟩ := ht.free b s ids j h hj
    obtain ⟨r', hr', -, hs', hb'⟩ := keeps_modifyRegion id hf j r hr
    exact ⟨r', hr', hb'.trans hb, hs'.trans hs⟩

theorem hold (id : ℕ) (key : String) : Tidy (t.hold id key) :=
  ht.modifyRegion id fun _ => ⟨rfl, rfl, rfl⟩

theorem remember (hashKey id : ℕ) : Tidy (t.remember hashKey id) :=
  ⟨ht.regions, ht.pool, ht.slab, ht.free⟩

variable {driver : Option Mapping} {genHash : String → ℕ} {r : MemRegion} {reply : Reply}

theorem addRegion (hr : kMinAlignSize ∣ r.ptr) : Tidy (t.addRegion r) where
  regions id r' h := by
    simp only [MemCacheAllocator.addRegion, List.getElem?_append] at h
    split_ifs at h
    · exact ht.regions id r' h
    · rw [List.getElem?_singleton] at h
      split_ifs at h
      cases h
      exact hr
  __ := ht
  free b s ids id h hid := by
    obtain ⟨r', hr', hb, hs⟩ := ht.free b s ids id h hid
    obtain ⟨r'', hr'', -, hs', hb'⟩ := keeps_addRegion t r id r' hr'
    exact ⟨r'', hr'', hb'.trans hb, hs'.trans hs⟩

variable {nBytes : ℕ}

section

variable (hdriver : AlignedDriver driver)
include hdriver

theorem creates {bucket : BucketType}
    (hcut : t.poolPtr_ ≠ 0 → nBytes ≤ t.poolRemainSize_ → kMinAlignSize ∣ nBytes)
    (h : t.Creates nBytes bucket driver r t₁) : Tidy t₁ := by
  cases h with
  | pool hptr hsize =>
    have hcarve : Tidy (t.carvePool nBytes) :=
      ⟨ht.regions, Nat.dvd_add ht.pool (hcut hptr hsize), ht.slab, ht.free⟩
    exact hcarve.addRegion ht.pool
  | @slab a a' out _ ha hout =>
    obtain ⟨hptr, hnext⟩ := cuMalloc_aligned (ht.slab a ha) hdriver hout
    have hslab : Tidy { t with slabAllocator_ := some a' } :=
      ⟨ht.regions, ht.pool, fun _ h => Option.some.inj h ▸ hnext, ht.free⟩
    exact hslab.addRegion hptr

theorem creates_ptr {bucket : BucketType} (h : t.Creates nBytes bucket driver r t₁) :
    kMinAlignSize ∣ r.ptr := by
  cases h with
  | pool _ _ => exact ht.pool
  | slab _ ha hout => exact (cuMalloc_aligned (ht.slab _ ha) hdriver hout).1

theorem selects {hashKey nBytes id : ℕ} {key : String} {bucket : BucketType} {shared : Bool}
    (hcut : t.Misses hashKey key nBytes bucket shared → t.poolPtr_ ≠ 0 →
      nBytes ≤ t.poolRemainSize_ → kMinAlignSize ∣ nBytes)
    (hs : t.Selects hashKey key nBytes bucket shared driver id r t₁) : Tidy t₁ := by
  cases hs with
  | busy _ _ _ => exact ht
  | idle _ _ hfree =>
    apply ht.setFree
    exact fun j hj => ht.free _ _ _ j hfree (List.mem_of_mem_erase hj)
  | reused _ hfree _ _ =>
    apply ht.setFree
    exact fun j hj => ht.free _ _ _ j hfree (List.mem_cons_of_mem _ hj)
  | created hmiss hnew _ => exact ht.creates hdriver (hcut hmiss) hnew

end

theorem getCachedCuMemById {key : String} {bucket : BucketType} {shared : Bool} (hco : Coherent t)
    (hcut : t.CutsAligned genHash (.getCachedCuMemById key nBytes bucket shared driver))
    (h : t.getCachedCuMemById genHash key nBytes bucket shared driver = .ok (reply, t')) :
    Tidy t' := by
  obtain ⟨hdriver, hcut⟩ := hcut
  rcases get_cases h with ⟨_, rfl⟩ | ⟨_, ⟨r, hmiss, hnew, _⟩ | ⟨id, ids, r, hids, hr, hptr⟩⟩ |
    ⟨id, r, t₁, hs, _, rfl⟩
  · exact ht
  · exact ht.creates hdriver (hcut hmiss) hnew
  · obtain ⟨r', hr', hne⟩ := hco.free _ _ _ id hids (List.mem_cons_self ..)
    rw [hr] at hr'
    cases hr'
    exact absurd hptr hne
  · exact ((ht.selects hdriver hcut hs).hold id key).remember _ id

theorem reserve {key : String} (h : t.reserve genHash key = .ok (reply, t')) : Tidy t' := by
  rcases reserve_cases h with ⟨_, rfl⟩ | ⟨id, r, t₁, hs, hc, _, rfl⟩
  · exact ht
  · have hdriver : AlignedDriver none := fun _ h => by cases h
    exact (ht.selects hdriver (fun _ _ _ => Nat.dvd_zero _) hs).hold id key

theorem unhold {hashKey id : ℕ} (hc : t.cachedRegion hashKey = some (id, r))
    (h : t.unhold id r = .ok t') : Tidy t' := by
  obtain ⟨-, hr⟩ := cachedRegion_eq_some.mp hc
  rcases unhold_cases h with ⟨_, _, rfl⟩ | ⟨_, rfl⟩
  · refine Tidy.modifyRegion (ht.setFree ?_) id fun _ => ⟨rfl, rfl, rfl⟩
    intro j hj
    rcases List.mem_append.mp hj with hj | hj
    · cases hfree : t.freeRegions r.bucket r.size with
      | none => simp [hfree] at hj
      | some ids => exact ht.free _ _ ids j hfree (by simpa [hfree] using hj)
    · rw [List.mem_singleton.mp hj]
      exact ⟨r, hr, rfl, rfl⟩
  · exact ht.modifyRegion id fun _ => ⟨rfl, rfl, rfl⟩

theorem release {keys : List String} (hco : Coherent t)
    (h : t.release genHash keys = .ok (reply, t')) : Tidy t' := by
  obtain ⟨reply', t₂, h', -, ht₂⟩ := hco.release_induction genHash keys Tidy ht
    fun _ _ _ _ _ _ hs _ hc _ hun => hs.unhold hc hun
  rw [h] at h'
  cases h'
  exact ht₂

theorem reset : Tidy t.reset.2 := by
  unfold MemCacheAllocator.reset
  split_ifs
  · exact ht
  · exact ⟨fun id r h => by simp [clear] at h, ht.pool, fun a h => by simp [clear] at h,
      fun b s ids id h => by simp [clear, freeRegions] at h⟩
  · exact ht

theorem init {poolSize granularity : ℕ}
    (hdriver : AlignedDriver driver) : Tidy (t.init poolSize granularity driver).2 := by
  have hnew : kMinAlignSize ∣ (SlabAllocator.create granularity).startPtr_ := Nat.dvd_zero _
  unfold MemCacheAllocator.init
  split_ifs
  · exact ht
  · simp only
    split
    · exact ⟨ht.regions, ht.pool, fun a h => Option.some.inj h ▸ hnew,
        fun b s ids id h => by simp [freeRegions] at h⟩
    · rename_i out a' hout
      obtain ⟨hptr, hnext⟩ := cuMalloc_aligned hnew hdriver hout
      exact ⟨ht.regions, hptr, fun a h => Option.some.inj h ▸ hnext,
        fun b s ids id h => by simp [freeRegions] at h⟩
  · exact ⟨ht.regions, ht.pool, fun a h => Option.some.inj h ▸ hnew,
      fun b s ids id h => by simp [freeRegions] at h⟩

theorem step {op : Op} (hco : Coherent t)
    (hcut : t.CutsAligned genHash op) (h : t.step genHash op = .ok (reply, t')) : Tidy t' := by
  cases op with
  | init poolSize granularity driver =>
    have h' : t.init poolSize granularity driver = (reply, t') := by simpa [MemCacheAllocator.step] using h
    have hinit : Tidy (t.init poolSize granularity driver).2 := ht.init hcut
    rwa [h'] at hinit
  | getCachedCuMemById key nBytes bucket shared driver =>
    exact ht.getCachedCuMemById hco hcut h
  | reserve key => exact ht.reserve h
  | release keys => exact ht.release hco h
  | reset =>
    have h' : t.reset = (reply, t') := by simpa [MemCacheAllocator.step] using h
    have hreset := ht.reset
    rwa [h'] at hreset

end Tidy

/-! ### What a successful request gets -/

variable {bucket : BucketType} {key : String}

theorem cachedRegion_handOut {hashKey id : ℕ} {r : MemRegion}
    (hr : t₁.allocatedRegions_[id]? = some r) :
    ((t₁.hold id key).remember hashKey id).cachedRegion hashKey =
      some (id, { r with ownerKey := key, refCnt := r.refCnt + 1 }) := by
  apply cachedRegion_eq_some.mpr
  constructor
  · rw [lookup_remember, if_pos rfl]
  · change (t₁.modifyRegion id _).allocatedRegions_[id]? = _
    rw [getElem?_modifyRegion, if_pos rfl, hr]
    rfl

theorem length_handOut (t : MemCacheAllocator) (hashKey id : ℕ) (key : String) :
    ((t.hold id key).remember hashKey id).allocatedRegions_.length =
      t.allocatedRegions_.length := by
  simp [remember, hold, modifyRegion]

variable {shared : Bool}

theorem usable_handOut {hashKey nBytes id : ℕ}
    {r : MemRegion} (hr : t₁.allocatedRegions_[id]? = some r) (halign : kMinAlignSize ∣ r.ptr) :
    Usable t ((t₁.hold id key).remember hashKey id) hashKey nBytes bucket shared r.ptr ↔
      nBytes ≤ r.size ∧ r.bucket = bucket ∧ (shared = true → t.HasFree nBytes bucket →
        t₁.allocatedRegions_.length = t.allocatedRegions_.length) := by
  have hlen := length_handOut t₁ hashKey id key
  constructor
  · rintro ⟨⟨id', r', hc, -, hsize, hbucket⟩, -, hnew⟩
    rw [cachedRegion_handOut hr] at hc
    cases hc
    exact ⟨hsize, hbucket, fun hs hf => hlen ▸ hnew hs hf⟩
  · rintro ⟨hsize, hbucket, hnew⟩
    exact ⟨⟨id, _, cachedRegion_handOut hr, rfl, hsize, hbucket⟩, halign,
      fun hs hf => hlen.trans (hnew hs hf)⟩

theorem misses_of_empty {hashKey nBytes : ℕ} {id : ℕ} {ids : List ℕ} (hshared : shared = true)
    (h : t.freeRegions bucket (roundUp nBytes kMinAlignSize) = some (id :: ids)) :
    ¬ t.Misses hashKey key nBytes bucket shared := by
  intro hmiss
  simpa [h] using hmiss.2 hshared

theorem Creates.region {nBytes : ℕ} {driver : Option Mapping}
    {r : MemRegion} (h : t.Creates nBytes bucket driver r t₁) :
    t₁.allocatedRegions_ = t.allocatedRegions_ ++ [r] ∧ r.size = nBytes ∧ r.bucket = bucket := by
  cases h with
  | pool _ _ => exact ⟨rfl, rfl, rfl⟩
  | slab _ _ _ => exact ⟨rfl, rfl, rfl⟩

theorem length_of_unshared {genHash : String → ℕ} {nBytes ptr handle : ℕ}
    {driver : Option Mapping} (hnone : t.usableRegion (genHash key) key = none)
    (h : t.getCachedCuMemById genHash key nBytes bucket false driver =
      .ok (.buffer ptr handle, t')) :
    t'.allocatedRegions_.length = t.allocatedRegions_.length + 1 := by
  have hfree : ∀ p, t.getFreeMemReg (roundUp nBytes kMinAlignSize) bucket false ≠ .ok (some p) := by
    intro p hp
    unfold getFreeMemReg at hp
    split at hp
    · cases hp
    · split at hp <;> cases hp
  unfold MemCacheAllocator.getCachedCuMemById at h
  simp only [hnone] at h
  split at h
  · cases h
  · rename_i hp
    exact absurd hp (hfree _)
  · split at h
    · cases h
    · cases h
    · rename_i r t₁ hnew
      split_ifs at h
      · cases h
      obtain ⟨-, rfl⟩ := Prod.mk.inj (Except.ok.inj h)
      rw [length_handOut, (createNewMemReg_ok hnew).region.1]
      simp

theorem Tidy.usable_iff {genHash : String → ℕ} {nBytes ptr handle : ℕ}
    {driver : Option Mapping} (ht : Tidy t) (hdriver : AlignedDriver driver)
    (h : t.getCachedCuMemById genHash key nBytes bucket shared driver =
      .ok (.buffer ptr handle, t')) :
    Usable t t' (genHash key) nBytes bucket shared ptr ↔
      t.Fits (genHash key) key nBytes bucket shared := by
  rcases get_cases h with ⟨h', _⟩ | ⟨h', _⟩ | ⟨id, r, t₁, hs, h', rfl⟩
  · cases h'
  · cases h'
  · cases h'
    have hcached : t.cachedRegion (genHash key) = some (id, r) → r.refCnt = 0 ∨ r.ownerKey = key →
        (t.Fits (genHash key) key nBytes bucket shared ↔ nBytes ≤ r.size ∧ r.bucket = bucket) := by
      intro hc huse
      rw [Fits, usableRegion_eq_some.mpr ⟨hc, huse⟩]
    cases hs with
    | busy hc hbusy howner =>
      have hr := (cachedRegion_eq_some.mp hc).2
      rw [usable_handOut hr (ht.regions id r hr), hcached hc (.inr howner)]
      simp
    | @idle _ _ ids hc hidle hfree =>
      have hr := (cachedRegion_eq_some.mp hc).2
      have hr' : (t.setFree r.bucket r.size (ids.erase id)).allocatedRegions_[id]? = some r := hr
      rw [usable_handOut hr' (ht.regions id r hr), hcached hc (.inl hidle)]
      simp [MemCacheAllocator.setFree]
    | @reused _ _ ids hnone hfree hr hptr =>
      have hshared : shared = true := by
        by_contra hshared
        rw [Bool.not_eq_true] at hshared
        subst hshared
        have hlen := length_of_unshared hnone h
        rw [length_handOut] at hlen
        simp [MemCacheAllocator.setFree] at hlen
      obtain ⟨r', hr', hbucket, hsize⟩ := ht.free _ _ _ id hfree List.mem_cons_self
      obtain rfl : r = r' := Option.some.inj (hr.symm.trans hr')
      have hset : (t.setFree bucket (roundUp nBytes kMinAlignSize) ids).allocatedRegions_[id]? =
          some r := hr
      rw [usable_handOut hset (ht.regions id r hr), Fits, hnone,
        if_neg (misses_of_empty hshared hfree), hsize]
      simp [hbucket, MemCacheAllocator.setFree]
    | created hmiss hnew hptr =>
      obtain ⟨hall, hsize, hbucket⟩ := hnew.region
      have hr : t₁.allocatedRegions_[t.allocatedRegions_.length]? = some r := by simp [hall]
      rw [usable_handOut hr (ht.creates_ptr hdriver hnew), Fits, hmiss.1, if_pos hmiss, hall]
      simp [hsize, hbucket]

/-- After a run whose requests cut the pool into aligned pieces, a buffer is usable if and only if
the request fits what the cache and the free lists hold. -/
theorem usable_iff_fits (genHash : String → ℕ) (ops : List Op)
    (hops : Admissible (next genHash) (AlignedUse genHash) [] fresh ops) :
    ∃ t, run (next genHash) fresh ops = .ok t ∧
      ∀ key nBytes bucket shared driver ptr handle t', AlignedDriver driver →
        t.getCachedCuMemById genHash key nBytes bucket shared driver =
          .ok (.buffer ptr handle, t') →
        (Usable t t' (genHash key) nBytes bucket shared ptr ↔
          t.Fits (genHash key) key nBytes bucket shared) := by
  obtain ⟨t, hrun, hco, ht⟩ := run_invariant (fun _ s => Coherent s ∧ Tidy s)
    (fun _ s op hinv hop => by
      obtain ⟨reply, s', h, hco⟩ := hinv.1.step genHash hop.1
      exact ⟨s', by simp [next, h, Except.map], hco, hinv.2.step hinv.1 hop.2 h⟩)
    ops ⟨coherent_fresh, tidy_fresh⟩ hops
  exact ⟨t, hrun, fun _ _ _ _ _ _ _ _ hdriver h => ht.usable_iff hdriver h⟩

/-- A region is released and asked for again under another key. -/
theorem usable_iff_fits_reused :
    ∃ t, run (next String.length) fresh
        [.init 0 32 none, .getCachedCuMemById "a" 16 .NVL true (some ⟨4096, 1⟩),
          .release ["a"]] = .ok t ∧
      ∀ key nBytes bucket shared driver ptr handle t', AlignedDriver driver →
        t.getCachedCuMemById String.length key nBytes bucket shared driver =
          .ok (.buffer ptr handle, t') →
        (Usable t t' key.length nBytes bucket shared ptr ↔
          t.Fits key.length key nBytes bucket shared) :=
  usable_iff_fits String.length _ (by decide)

/-- A key that comes back for more gets the region of its first request. -/
theorem not_usable_grown :
    ¬ ∀ ops, Admissible (next String.length) (fun _ => SessionOpen) [] fresh ops →
      ∃ t, run (next String.length) fresh ops = .ok t ∧
        ∀ key nBytes bucket shared driver ptr handle t', AlignedDriver driver →
          t.getCachedCuMemById String.length key nBytes bucket shared driver =
            .ok (.buffer ptr handle, t') →
          Usable t t' key.length nBytes bucket shared ptr := by
  intro hall
  obtain ⟨t, hrun, husable⟩ := hall
    [.init 0 32 none, .getCachedCuMemById "a" 16 .NVL true (some ⟨4096, 1⟩), .release ["a"]]
    (by decide)
  have hget : ((run (next String.length) fresh
      [.init 0 32 none, .getCachedCuMemById "a" 16 .NVL true (some ⟨4096, 1⟩),
        .release ["a"]]).bind fun s =>
      (s.getCachedCuMemById String.length "a" 64 .NVL true none).map fun p =>
        (p.1, p.2.allocatedRegions_.map MemRegion.size)) = .ok (.buffer 4096 1, [16]) := by decide
  rw [hrun] at hget
  simp only [Except.bind] at hget
  cases h : t.getCachedCuMemById String.length "a" 64 .NVL true none with
  | error f => simp [h, Except.map] at hget
  | ok p =>
    obtain ⟨reply, t'⟩ := p
    simp only [h, Except.map, Except.ok.injEq, Prod.mk.injEq] at hget
    obtain ⟨rfl, hsizes⟩ := hget
    obtain ⟨id, r, hc, -, hsize, -⟩ := (husable "a" 64 .NVL true none 4096 1 t'
      (by decide) h).region
    have hmem : r.size ∈ t'.allocatedRegions_.map MemRegion.size :=
      List.mem_map_of_mem (List.mem_of_getElem? (cachedRegion_eq_some.mp hc).2)
    rw [hsizes, List.mem_singleton] at hmem
    omega

end TorchComms.Memory.MemCacheAllocator
