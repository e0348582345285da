import TorchComms.Memory.Arena
import TorchComms.Memory.Coherence

/-! # Where the regions of `memCacheAllocator` lie

The allocator refines the arena: every call leaves the arena as it is, carves one range from
it, or opens or closes a session. Containment in live slabs follows along every run in which
no pool cursor outlives its session, separation along every run that does not also carve the
tail of the pool's slab.
-/
namespace TorchComms.Memory.MemCacheAllocator

open Foundation

variable {t t' t₁ : MemCacheAllocator}

/-- The arena of a cache allocator. -/
def arena (t : MemCacheAllocator) : Arena where
  regions := t.allocatedRegions_.map MemRegion.range
  pool := ⟨t.poolPtr_, t.poolRemainSize_⟩
  live := t.intialized_ = true ∧ 0 < t.sessionPoolSize
  allocator := t.slabAllocator_

@[simp] theorem arena_setFree (t : MemCacheAllocator) (b : BucketType) (s : ℕ) (ids : List ℕ) :
    (t.setFree b s ids).arena = t.arena := rfl

@[simp] theorem arena_remember (t : MemCacheAllocator) (h id : ℕ) :
    (t.remember h id).arena = t.arena := rfl

theorem arena_modifyRegion {f : MemRegion → MemRegion} (id : ℕ)
    (hf : ∀ r, (f r).range = r.range) : (t.modifyRegion id f).arena = t.arena := by
  simp only [arena, modifyRegion, Arena.mk.injEq, and_true]
  apply List.ext_getElem?
  intro j
  simp only [List.getElem?_map, List.getElem?_modify]
  split_ifs <;> cases t.allocatedRegions_[j]? <;> simp [hf]

@[simp] theorem arena_hold (t : MemCacheAllocator) (id : ℕ) (key : String) :
    (t.hold id key).arena = t.arena :=
  arena_modifyRegion id fun _ => rfl

theorem arena_addRegion (t : MemCacheAllocator) (r : MemRegion) :
    (t.addRegion r).arena = { t.arena with regions := t.arena.regions ++ [r.range] } := by
  simp [arena, addRegion]

/-- The test of `createNewMemReg` for the pool. -/
def FitsPool (t : MemCacheAllocator) (nBytes : ℕ) : Prop :=
  t.poolPtr_ ≠ 0 ∧ nBytes ≤ t.poolRemainSize_

instance (t : MemCacheAllocator) (nBytes : ℕ) : Decidable (t.FitsPool nBytes) :=
  inferInstanceAs (Decidable (_ ∧ _))

/-- How a new region changes the arena. -/
def Carves (t : MemCacheAllocator) (nBytes : ℕ) (driver : Option Mapping) (A : Arena) : Prop :=
  (t.FitsPool nBytes ∧ A = t.arena.carvePool nBytes) ∨
  (¬ t.FitsPool nBytes ∧ ∃ a a' out, t.slabAllocator_ = some a ∧
    a.cuMalloc nBytes driver = some (out, a') ∧ A = t.arena.carveSlab nBytes out a')

variable {driver : Option Mapping} {genHash : String → ℕ} {bucket : BucketType} {key : String}
    {shared : Bool} {reply : Reply} {nBytes : ℕ} {op : Op}
  {poolSize granularity : ℕ} {r : MemRegion}

theorem Creates.carves
    (h : t.Creates nBytes bucket driver r t₁) : t.Carves nBytes driver t₁.arena := by
  cases h with
  | pool hptr hsize => exact .inl ⟨⟨hptr, hsize⟩, arena_addRegion _ _⟩
  | slab hpool ha hout => exact .inr ⟨hpool, _, _, _, ha, hout, arena_addRegion _ _⟩

theorem Selects.arena {h nBytes id : ℕ} (hs : t.Selects h key nBytes bucket shared driver id r t₁) :
    t₁.arena = t.arena ∨
      t.Misses h key nBytes bucket shared ∧ t.Carves nBytes driver t₁.arena := by
  cases hs with
  | busy _ _ _ => exact .inl rfl
  | idle _ _ _ => exact .inl rfl
  | reused _ _ _ _ => exact .inl rfl
  | created hmiss hnew _ => exact .inr ⟨hmiss, hnew.carves⟩

theorem get_arena
    (hc : Coherent t)
    (h : t.getCachedCuMemById genHash key nBytes bucket shared driver = .ok (reply, t')) :
    t'.arena = t.arena ∨
      t.Misses (genHash key) key nBytes bucket shared ∧ t.Carves nBytes driver t'.arena := by
  rcases get_cases h with ⟨_, rfl⟩ | ⟨_, ⟨r, hmiss, hnew, _⟩ | ⟨id, ids, r, hids, hr, hptr⟩⟩ |
    ⟨id, r, t₁, hs, _, rfl⟩
  · exact .inl rfl
  · exact .inr ⟨hmiss, hnew.carves⟩
  · obtain ⟨r', hr', hne⟩ := hc.free _ _ _ id hids (List.mem_cons_self ..)
    rw [hr] at hr'
    cases hr'
    exact absurd hptr hne
  · simpa using hs.arena

theorem reserve_arena
    (h : t.reserve genHash key = .ok (reply, t')) : t'.arena = t.arena := by
  rcases reserve_cases h with ⟨_, rfl⟩ | ⟨id, r, t₁, hs, hcr, _, rfl⟩
  · rfl
  · rw [arena_hold]
    rcases hs.arena with heq | ⟨hmiss, _⟩
    · exact heq
    · cases hs with
      | busy _ _ _ => rfl
      | idle _ _ _ => rfl
      | reused _ _ _ _ => rfl
      | created _ _ _ =>
        obtain ⟨hlt, _⟩ := List.getElem?_eq_some_iff.mp (cachedRegion_eq_some.mp hcr).2
        exact absurd hlt (lt_irrefl _)

theorem unhold_arena {id : ℕ} (h : t.unhold id r = .ok t') : t'.arena = t.arena := by
  rcases unhold_cases h with ⟨_, _, rfl⟩ | ⟨_, rfl⟩
  · refine (arena_modifyRegion id ?_).trans (arena_setFree t _ _ _)
    exact fun _ => rfl
  · exact arena_modifyRegion id fun _ => rfl

theorem release_arena {keys : List String}
    (hc : Coherent t) (h : t.release genHash keys = .ok (reply, t')) : t'.arena = t.arena := by
  obtain ⟨_, _, hok, _, heq⟩ := hc.release_induction genHash keys
    (fun s => s.arena = t.arena) rfl
    fun _ _ _ _ _ _ hs _ _ _ hun => (unhold_arena hun).trans hs
  rw [h] at hok
  cases hok
  exact heq

/-! ### Sessions -/

/-- What the callers and the driver keep to: calls are made in an open session, the
granularity is positive, the pool size is no more than the address space can round up, and a
mapping is new. -/
def Orderly (t : MemCacheAllocator) : Op → Prop
  | .init poolSize granularity driver => t.intialized_ = false →
      0 < granularity ∧ (SlabAllocator.create granularity).Fits poolSize ∧
        ∀ m ∈ driver, (SlabAllocator.create granularity).Fresh (roundUp poolSize kMinAlignSize) m
  | .getCachedCuMemById _ nBytes _ _ driver => t.intialized_ = true ∧
      ∀ a ∈ t.slabAllocator_, ∀ m ∈ driver, a.Fresh (roundUp nBytes kMinAlignSize) m
  | _ => True

theorem Orderly.sessionOpen (h : t.Orderly op) : t.SessionOpen op := by
  cases op <;> first | exact h.1 | trivial

/-- A session starts with an empty arena and, when it has one, the pool at the front of the
first slab. -/
theorem init_arena (hc : Coherent t)
    (hinit : t.intialized_ = false) (hop : t.Orderly (.init poolSize granularity driver)) :
    (t.init poolSize granularity driver).2.arena.Contained ∧
      (t.init poolSize granularity driver).2.arena.Separated := by
  obtain ⟨_, hfit, hfresh⟩ := hop hinit
  have hregions := (hc.closed hinit).1
  have hcreate : (SlabAllocator.create granularity).TailInSlab :=
    SlabAllocator.tailInSlab_create granularity
  unfold MemCacheAllocator.init
  rw [if_neg (by simp [hinit])]
  split_ifs with hpool
  · simp only
    split
    · refine ⟨Arena.contained_of_empty ?_ ?_ ?_, Arena.separated_of_empty ?_ ?_⟩
      all_goals simp [arena, hregions, hinit, hcreate]
    · rename_i out a' hout
      rcases SlabAllocator.cuMalloc_cases hout with ⟨hroom, _⟩ |
        ⟨m, hm, _, hptr, hsize, hsl, htail⟩
      · have := hfit.1
        simp only [SlabAllocator.create] at hroom
        omega
      · have hslab := htail hfit
        constructor
        · refine ⟨by simp [arena, hregions], fun _ => ?_, fun a ha => ?_⟩
          · refine ⟨_, ?_, Range.Covers.refl _⟩
            simp [arena, Arena.slabs, hsl, hptr, hsize, SlabAllocator.create]
          · cases ha
            have hbase := congrArg Range.base hslab
            simp only [SlabAllocator.tail, Range.rest] at hbase
            have hpos := (hfresh m hm).1
            refine .inr ⟨by omega, ⟨m.ptr, _⟩, hsl ▸ List.mem_append_right _ (.head _), ?_⟩
            rw [hslab]
            exact Range.covers_rest hfit.2
        · refine ⟨by simp [arena, hregions], by simp [arena, hregions], fun a ha => .inl ?_⟩
          cases ha
          refine ⟨⟨rfl, hpool⟩, ?_⟩
          rw [hslab, Range.stop_rest hfit.2, hptr, hsize]
          rfl
  · refine ⟨Arena.contained_of_empty ?_ ?_ ?_, Arena.separated_of_empty ?_ ?_⟩
    all_goals simp [arena, hregions, hcreate]
    all_goals omega

theorem init_of_intialized
    (hinit : t.intialized_ = true) : t.init poolSize granularity driver = (.success, t) := by
  simp [MemCacheAllocator.init, hinit]

theorem reset_arena (hA : t.arena.Contained) : t.reset.2.arena.Contained := by
  unfold MemCacheAllocator.reset
  split_ifs
  · exact hA
  · refine Arena.contained_of_empty ?_ ?_ ?_ <;> simp [arena, clear]
  · exact hA

/-! ### Containment along runs -/

/-- A request that creates a region takes the pool only in a session that has one, and is small
enough to be rounded up when a slab serves it. -/
def PoolOfSession (genHash : String → ℕ) (t : MemCacheAllocator) : Op → Prop
  | .getCachedCuMemById key nBytes bucket shared driver =>
    t.Misses (genHash key) key nBytes bucket shared →
      (t.FitsPool nBytes → 0 < t.sessionPoolSize) ∧
      (¬ t.FitsPool nBytes →
        ∀ a ∈ t.slabAllocator_, (a.cuMalloc nBytes driver).isSome → a.Fits nBytes)
  | _ => True

theorem contained_get
    (hc : Coherent t) (hA : t.arena.Contained)
    (horder : t.Orderly (.getCachedCuMemById key nBytes bucket shared driver))
    (hpool : t.PoolOfSession genHash (.getCachedCuMemById key nBytes bucket shared driver))
    (h : t.getCachedCuMemById genHash key nBytes bucket shared driver = .ok (reply, t')) :
    t'.arena.Contained := by
  rcases get_arena hc h with heq | ⟨hmiss, ⟨hfits, heq⟩ | ⟨hno, a, a', out, ha, hout, heq⟩⟩
  · rwa [heq]
  · rw [heq]
    exact hA.carvePool ⟨horder.1, (hpool hmiss).1 hfits⟩ hfits.2
  · rw [heq]
    have hfit := (hpool hmiss).2 hno a ha (by rw [hout]; rfl)
    exact hA.carveSlab ha hout hfit fun m hm => horder.2 a ha m hm

theorem contained_step (hc : Coherent t)
    (hA : t.arena.Contained) (horder : t.Orderly op) (hpool : t.PoolOfSession genHash op) :
    ∃ reply t', t.step genHash op = .ok (reply, t') ∧ Coherent t' ∧ t'.arena.Contained := by
  obtain ⟨reply, t', h, hc'⟩ := hc.step genHash horder.sessionOpen
  refine ⟨reply, t', h, hc', ?_⟩
  cases op with
  | init poolSize granularity driver =>
    have ht' : (t.init poolSize granularity driver).2 = t' :=
      congrArg Prod.snd (Except.ok.inj h)
    rw [← ht']
    by_cases hinit : t.intialized_ = true
    · rwa [init_of_intialized hinit]
    · exact (init_arena hc (by simpa using hinit) horder).1
  | getCachedCuMemById key nBytes bucket shared driver => exact contained_get hc hA horder hpool h
  | reserve key => rwa [reserve_arena h]
  | release keys => rwa [release_arena hc h]
  | reset =>
    have ht' : t.reset.2 = t' := congrArg Prod.snd (Except.ok.inj h)
    rw [← ht']
    exact reset_arena hA

theorem arena_fresh_contained : fresh.arena.Contained :=
  Arena.contained_of_empty rfl (by simp [arena, fresh]) (by simp [arena, fresh])

/-- What every call of the run keeps to. -/
def WellUsed (genHash : String → ℕ) (_ : List Op) (t : MemCacheAllocator) (op : Op) : Prop :=
  t.Orderly op ∧ t.PoolOfSession genHash op

variable {past : List Op}

theorem contained_next
    (hinv : Coherent t ∧ t.arena.Contained) (hop : WellUsed genHash past t op) :
    ∃ t', t.next genHash op = .ok t' ∧ Coherent t' ∧ t'.arena.Contained := by
  obtain ⟨reply, t', h, hinv'⟩ := contained_step hinv.1 hinv.2 hop.1 hop.2
  exact ⟨t', by simp [next, h, Except.map], hinv'⟩

/-- The slabs the current allocator holds. -/
def slabs (t : MemCacheAllocator) : List Range := t.arena.slabs

theorem get_buffer
    {ptr handle : ℕ} (hc : Coherent t) (hinit : t.intialized_ = true)
    (h : t.getCachedCuMemById genHash key nBytes bucket shared driver =
      .ok (.buffer ptr handle, t')) :
    ∃ id r, t'.cachedRegion (genHash key) = some (id, r) ∧ r.ptr = ptr ∧ ptr ≠ 0 := by
  rcases get_cases h with ⟨hreply, _⟩ | ⟨hreply, _⟩ | ⟨id, r, t₁, hs, hreply, rfl⟩
  · cases hreply
  · cases hreply
  · cases hreply
    obtain ⟨_, r', hr', heq, hne⟩ := hc.selects hinit hs
    refine ⟨id, r', cachedRegion_eq_some.mpr ⟨?_, hr'⟩, heq, hne⟩
    rw [lookup_remember, if_pos rfl]

instance (t : MemCacheAllocator) : ∀ op, Decidable (t.Orderly op)
  | .init _ _ _ => inferInstanceAs (Decidable (_ → _ ∧ _ ∧ ∀ m ∈ _, _))
  | .getCachedCuMemById _ _ _ _ _ =>
    inferInstanceAs (Decidable (_ ∧ ∀ a ∈ t.slabAllocator_, ∀ m ∈ _, _))
  | .reserve _ => isTrue trivial
  | .release _ => isTrue trivial
  | .reset => isTrue trivial

instance (genHash : String → ℕ) (t : MemCacheAllocator) :
    ∀ op, Decidable (t.PoolOfSession genHash op)
  | .getCachedCuMemById _ _ _ _ _ =>
    inferInstanceAs (Decidable (_ → (_ → _) ∧ (_ → ∀ a ∈ t.slabAllocator_, _ → _)))
  | .init _ _ _ => isTrue trivial
  | .reserve _ => isTrue trivial
  | .release _ => isTrue trivial
  | .reset => isTrue trivial

instance (genHash : String → ℕ) (past : List Op) (t : MemCacheAllocator) (op : Op) :
    Decidable (WellUsed genHash past t op) :=
  inferInstanceAs (Decidable (_ ∧ _))

/-- Every buffer handed out lies in a slab the allocator holds at that moment, in every run in
which no request is served from the pool cursor of an earlier session. -/
theorem buffer_in_live_slab (genHash : String → ℕ) (ops : List Op) (key : String) (nBytes : ℕ)
    (bucket : BucketType) (shared : Bool) (driver : Option Mapping)
    (hops : Admissible (next genHash) (WellUsed genHash) [] fresh
      (ops ++ [.getCachedCuMemById key nBytes bucket shared driver])) :
    ∃ t reply t', run (next genHash) fresh ops = .ok t ∧
      t.getCachedCuMemById genHash key nBytes bucket shared driver = .ok (reply, t') ∧
      ∀ ptr handle, reply = .buffer ptr handle →
        ∃ id r, t'.cachedRegion (genHash key) = some (id, r) ∧ r.ptr = ptr ∧
          ∃ s ∈ t'.slabs, s.Covers r.range := by
  obtain ⟨t, t', hrun, hinv, hop, hnext, hinv'⟩ :=
    run_last_step (fun _ t => Coherent t ∧ t.arena.Contained)
      (fun _ _ _ hinv hop => contained_next hinv hop) ops _
      ⟨coherent_fresh, arena_fresh_contained⟩ hops
  obtain ⟨reply, s, hstep, _⟩ := contained_step hinv.1 hinv.2 hop.1 hop.2
  have hs : s = t' := by
    rw [next, hstep] at hnext
    exact (Except.ok.injEq ..).mp hnext
  subst hs
  refine ⟨t, reply, s, hrun, hstep, fun ptr handle hreply => ?_⟩
  rw [hreply] at hstep
  obtain ⟨id, r, hr, hptr, hne⟩ := get_buffer hinv.1 hop.1.1 hstep
  refine ⟨id, r, hr, hptr, ?_⟩
  have hmem : r.range ∈ s.arena.regions :=
    List.mem_map_of_mem (List.mem_of_getElem? (cachedRegion_eq_some.mp hr).2)
  rcases hinv'.2.regions _ hmem with ⟨hnull, _⟩ | hcov
  · exact absurd (hptr ▸ hnull) hne
  · exact hcov

/-- A second session without a pool, whose request is too large for the old pool cursor. -/
theorem buffer_in_live_slab_second_session :
    ∃ t reply t', run (next String.length) fresh
        [.init 64 32 (some ⟨4096, 1⟩), .getCachedCuMemById "a" 16 .DEFAULT true none,
          .release ["a"], .reset, .init 0 32 none] = .ok t ∧
      t.getCachedCuMemById String.length "b" 64 .DEFAULT true (some ⟨8192, 2⟩) =
        .ok (reply, t') ∧
      ∀ ptr handle, reply = .buffer ptr handle →
        ∃ id r, t'.cachedRegion (String.length "b") = some (id, r) ∧ r.ptr = ptr ∧
          ∃ s ∈ t'.slabs, s.Covers r.range :=
  buffer_in_live_slab String.length _ "b" 64 .DEFAULT true (some ⟨8192, 2⟩) (by decide)

/-- `reset` leaves the pool cursor behind: in a second session without a pool a small request
is served from the slab that was freed. -/
theorem buffer_in_freed_slab :
    ¬ ∀ (ops : List Op) (key : String) (nBytes : ℕ) (bucket : BucketType) (shared : Bool)
      (driver : Option Mapping),
      Admissible (next String.length) (fun _ t op => t.Orderly op) [] fresh
        (ops ++ [.getCachedCuMemById key nBytes bucket shared driver]) →
      ∃ t reply t', run (next String.length) fresh ops = .ok t ∧
        t.getCachedCuMemById String.length key nBytes bucket shared driver = .ok (reply, t') ∧
        ∀ ptr handle, reply = .buffer ptr handle →
          ∃ id r, t'.cachedRegion (String.length key) = some (id, r) ∧ r.ptr = ptr ∧
            ∃ s ∈ t'.slabs, s.Covers r.range := by
  intro hall
  obtain ⟨t, reply, t', hrun, hget, hin⟩ := hall
    [.init 64 32 (some ⟨4096, 1⟩), .getCachedCuMemById "a" 16 .DEFAULT true none,
      .release ["a"], .reset, .init 0 32 none] "b" 32 .DEFAULT true none (by decide)
  have hfreed : ((run (next String.length) fresh
      [.init 64 32 (some ⟨4096, 1⟩), .getCachedCuMemById "a" 16 .DEFAULT true none,
        .release ["a"], .reset, .init 0 32 none]).bind fun t =>
      (t.getCachedCuMemById String.length "b" 32 .DEFAULT true none).map fun p =>
        (p.1, p.2.slabs)) = .ok (.buffer 4112 1, []) := by decide
  rw [hrun] at hfreed
  simp only [Except.bind, hget, Except.map, Except.ok.injEq, Prod.mk.injEq] at hfreed
  obtain ⟨_, _, _, _, s, hs, _⟩ := hin 4112 1 hfreed.1
  rw [hfreed.2] at hs
  cases hs

/-! ### Separation along runs -/

/-- A non-empty request that creates a region and does not fit the pool is not served from the
tail of the pool's slab, and is small enough to be rounded up when a slab serves it. -/
def SparesPoolTail (genHash : String → ℕ) (t : MemCacheAllocator) : Op → Prop
  | .getCachedCuMemById key nBytes bucket shared driver =>
    t.Misses (genHash key) key nBytes bucket shared → ¬ t.FitsPool nBytes →
      ∀ a ∈ t.slabAllocator_, (a.cuMalloc nBytes driver).isSome → a.Fits nBytes ∧
        (roundUp nBytes kMinAlignSize ≤ a.freeSize_ → t.arena.TailIsPool a → nBytes = 0)
  | _ => True

/-- Before the first `reset` there is a pool cursor only in a session with a pool. -/
def NoStalePool (t : MemCacheAllocator) : Prop := ¬ t.arena.live → t.poolPtr_ = 0

theorem noStalePool_get
        (hc : Coherent t) (hs : t.NoStalePool)
    (h : t.getCachedCuMemById genHash key nBytes bucket shared driver = .ok (reply, t')) :
    t'.NoStalePool := by
  intro hlive
  change t'.arena.pool.base = 0
  rcases get_arena hc h with heq | ⟨_, ⟨hfits, heq⟩ | ⟨_, a, a', out, _, _, heq⟩⟩
  · rw [heq] at hlive ⊢
    exact hs hlive
  · rw [heq] at hlive
    exact absurd (hs hlive) hfits.1
  · rw [heq] at hlive ⊢
    exact hs hlive

theorem noStalePool_init
    (hs : t.NoStalePool) : (t.init poolSize granularity driver).2.NoStalePool := by
  unfold MemCacheAllocator.init
  split_ifs with hinit hpool
  · exact hs
  · have hnull : t.poolPtr_ = 0 := hs fun hlive => hinit hlive.1
    simp only
    split
    · exact fun _ => hnull
    · exact fun hlive => absurd ⟨rfl, hpool⟩ hlive
  · exact fun _ => hs fun hlive => hinit hlive.1

/-- What one session of calls keeps to. -/
def OneSession (genHash : String → ℕ) (_ : List Op) (t : MemCacheAllocator) (op : Op) : Prop :=
  op ≠ .reset ∧ t.Orderly op ∧ t.SparesPoolTail genHash op

/-- The state of the memory in a session that spares the pool's tail. -/
structure Placed (t : MemCacheAllocator) : Prop where
  coherent : Coherent t
  contained : t.arena.Contained
  separated : t.arena.Separated
  noStale : t.NoStalePool

theorem placed_fresh : Placed fresh where
  coherent := coherent_fresh
  contained := arena_fresh_contained
  separated := Arena.separated_of_empty rfl (by simp [arena, fresh])
  noStale _ := rfl

theorem Placed.of_arena (hp : Placed t) (hc : Coherent t') (heq : t'.arena = t.arena) :
    Placed t' where
  coherent := hc
  contained := heq ▸ hp.contained
  separated := heq ▸ hp.separated
  noStale hlive := by
    change t'.arena.pool.base = 0
    rw [heq] at hlive ⊢
    exact hp.noStale hlive

theorem Placed.step (hp : Placed t) (hop : OneSession genHash past t op) :
    ∃ t', t.next genHash op = .ok t' ∧ Placed t' := by
  obtain ⟨hreset, horder, hspare⟩ := hop
  obtain ⟨reply, t', h, hc'⟩ := hp.coherent.step genHash horder.sessionOpen
  refine ⟨t', by simp [next, h, Except.map], ?_⟩
  cases op with
  | init poolSize granularity driver =>
    have ht' : (t.init poolSize granularity driver).2 = t' :=
      congrArg Prod.snd (Except.ok.inj h)
    rw [← ht'] at hc' ⊢
    by_cases hinit : t.intialized_ = true
    · rwa [init_of_intialized hinit]
    · have hA := init_arena hp.coherent (by simpa using hinit) horder
      exact ⟨hc', hA.1, hA.2, noStalePool_init hp.noStale⟩
  | getCachedCuMemById key nBytes bucket shared driver =>
    have hstale := noStalePool_get hp.coherent hp.noStale h
    rcases get_arena hp.coherent h with heq | ⟨hmiss, ⟨hfits, heq⟩ |
      ⟨hno, a, a', out, ha, hout, heq⟩⟩
    · exact hp.of_arena hc' heq
    · have hlive : t.arena.live := by
        by_contra hdead
        exact hfits.1 (hp.noStale hdead)
      refine ⟨hc', ?_, ?_, hstale⟩
      · rw [heq]
        exact hp.contained.carvePool hlive hfits.2
      · rw [heq]
        exact hp.separated.carvePool hlive hfits.2
    · obtain ⟨hfit, htaken⟩ := hspare hmiss hno a ha (by rw [hout]; rfl)
      have hfresh := fun m hm => horder.2 a ha m hm
      refine ⟨hc', ?_, ?_, hstale⟩
      · rw [heq]
        exact hp.contained.carveSlab ha hout hfit hfresh
      · rw [heq]
        exact hp.separated.carveSlab ha hout hfit hp.contained hfresh htaken
  | reserve key => exact hp.of_arena hc' (reserve_arena h)
  | release keys => exact hp.of_arena hc' (release_arena hp.coherent h)
  | reset => exact absurd rfl hreset

/-- The regions ever created are pairwise apart, and each lies in one slab of the allocator; a
region whose pointer is null was refused to its caller. -/
structure Disjoint (t : MemCacheAllocator) : Prop where
  apart : t.allocatedRegions_.Pairwise fun r r' => r.range.Apart r'.range
  inSlab : ∀ r ∈ t.allocatedRegions_,
    (r.ptr = 0 ∧ r.size = 0) ∨ ∃ s ∈ t.slabs, s.Covers r.range

instance (t : MemCacheAllocator) (a : SlabAllocator) : Decidable (t.arena.TailIsPool a) :=
  inferInstanceAs (Decidable ((t.intialized_ = true ∧ 0 < t.sessionPoolSize) ∧ _ = _))

instance (genHash : String → ℕ) (t : MemCacheAllocator) :
    ∀ op, Decidable (t.SparesPoolTail genHash op)
  | .getCachedCuMemById _ _ _ _ _ =>
    inferInstanceAs (Decidable (_ → _ → ∀ a ∈ t.slabAllocator_, _ → _ ∧ (_ → _ → _)))
  | .init _ _ _ => isTrue trivial
  | .reserve _ => isTrue trivial
  | .release _ => isTrue trivial
  | .reset => isTrue trivial

instance (genHash : String → ℕ) (past : List Op) (t : MemCacheAllocator) (op : Op) :
    Decidable (OneSession genHash past t op) :=
  inferInstanceAs (Decidable (_ ∧ _ ∧ _))

/-- Within one session whose requests spare the tail of the pool's slab, the regions ever
created are disjoint and inside slabs. -/
theorem disjoint_of_oneSession (genHash : String → ℕ) (ops : List Op)
    (hops : Admissible (next genHash) (OneSession genHash) [] fresh ops) :
    ∃ t, run (next genHash) fresh ops = .ok t ∧ t.Disjoint := by
  obtain ⟨t, hrun, hp⟩ := run_invariant (fun _ t => Placed t)
    (fun _ _ _ hp hop => hp.step hop) ops placed_fresh hops
  refine ⟨t, hrun, ?_, fun r hr => ?_⟩
  · exact List.pairwise_map.mp hp.separated.regions
  · exact hp.contained.regions r.range (List.mem_map_of_mem hr)

/-- The pool is used up, then a request too large for the tail of its slab opens a new one. -/
theorem disjoint_of_oneSession_new_slab :
    ∃ t, run (next String.length) fresh
        [.init 48 32 (some ⟨4096, 1⟩), .getCachedCuMemById "a" 40 .DEFAULT true none,
          .getCachedCuMemById "bb" 32 .NVL true (some ⟨8192, 2⟩),
          .getCachedCuMemById "ccc" 24 .NVL true none] = .ok t ∧ t.Disjoint :=
  disjoint_of_oneSession String.length _ (by decide)

/-- A 3 MiB pool on 2 MiB granularity owns its whole 4 MiB slab, but the slab allocator also
hands out the last 1 MiB of it. -/
theorem not_disjoint_of_orderly :
    ¬ ∀ ops, (∀ op ∈ ops, op ≠ .reset) →
      Admissible (next String.length) (fun _ t op => t.Orderly op) [] fresh ops →
      ∃ t, run (next String.length) fresh ops = .ok t ∧ t.Disjoint := by
  intro hall
  obtain ⟨t, hrun, hdis⟩ := hall
    [.init 3145728 2097152 (some ⟨4294967296, 1⟩),
      .getCachedCuMemById "a" 3670016 .DEFAULT true none,
      .getCachedCuMemById "bb" 1048576 .DEFAULT true none] (by decide) (by decide)
  have hranges : (run (next String.length) fresh
      [.init 3145728 2097152 (some ⟨4294967296, 1⟩),
        .getCachedCuMemById "a" 3670016 .DEFAULT true none,
        .getCachedCuMemById "bb" 1048576 .DEFAULT true none]).map
      (fun t => t.allocatedRegions_.map MemRegion.range) =
      .ok [⟨4294967296, 3670016⟩, ⟨4298113024, 1048576⟩] := by decide
  rw [hrun] at hranges
  simp only [Except.map, Except.ok.injEq] at hranges
  have hpair := List.pairwise_map.mpr hdis.apart
  rw [hranges] at hpair
  revert hpair
  decide

end TorchComms.Memory.MemCacheAllocator
