import Mathlib.Data.List.Nodup
import TorchComms.Mapper.NvlRegistration

/-! # Imported mappings and their releases

The messages of one base alternate: exports of one generation of registrations, then the release
of the last of them. So a release finds the mapping of its own generation, and the first export of
a generation makes the mapping that the others use.
-/
namespace TorchComms.Mapper.Nvl

open Function State

variable {s s' : State} {r : RegElem} {rs rest : List RegElem} {b : ℕ}

@[simp] theorem regElem?_release : (ControlMsg.NVL_RELEASE_MEM b).regElem? = none := rfl

@[simp] theorem regElem?_export : (ControlMsg.NVL_EXPORT_MEM r).regElem? = some r := rfl

theorem releaseRemReg_eq_some {m m' : RemRegMap} :
    releaseRemReg m b = some m' ↔ m b ≠ none ∧ m' = update m b none := by
  unfold releaseRemReg
  by_cases h : m b = none
  · simp [h]
  · simp [h, eq_comm]

theorem remRegMap_importMem_some {m : List ℕ} (h : s.remRegMap r.base = some m) :
    (s.importMem r rest).remRegMap = s.remRegMap := by
  simp [State.importMem, importRemReg, RegElem.ipcExport, h]

theorem remRegMap_importMem_none (h : s.remRegMap r.base = none) :
    (s.importMem r rest).remRegMap = update s.remRegMap r.base (some r.allocHandles) := by
  simp [State.importMem, importRemReg, RegElem.ipcExport, h]

/-- What ties the exporter, the messages and the mappings together. -/
structure Inv (s : State) : Prop where
  exported : ∀ r ∈ s.exportRegCache, r ∈ s.regs
  imported : ∀ r ∈ s.imported, r ∈ s.exportRegCache ∧ s.remRegMap r.base ≠ none
  pending : ∀ p ∈ s.pending, p ∈ s.exportRegCache
  reached : ∀ r ∈ s.exportRegCache, r ∈ s.imported ∨ r ∈ s.pending
  /-- A release under way is of an earlier generation than all that is known of its base. -/
  release : ∀ b, .NVL_RELEASE_MEM b ∈ s.channel → s.remRegMap b ≠ none ∧
    (∀ r ∈ s.imported, r.base ≠ b) ∧ (∀ r ∈ s.received, r.base ≠ b) ∧ b ∉ s.owed
  order : s.channel.Pairwise fun msg msg' => msg'.regElem? = none → msg.base ≠ msg'.base
  owed : ∀ b ∈ s.owed, s.remRegMap b ≠ none ∧ ∀ r ∈ s.exportRegCache, r.base ≠ b
  owedOnce : s.owed.Nodup
  reason : ∀ b, s.remRegMap b ≠ none →
    .NVL_RELEASE_MEM b ∈ s.channel ∨ b ∈ s.owed ∨ ∃ r ∈ s.imported, r.base = b
  /-- The mapping of this generation is as long as any registration of it. -/
  spans : ∀ b m, s.remRegMap b = some m → .NVL_RELEASE_MEM b ∉ s.channel →
    ∀ r ∈ s.exportRegCache, r.base = b → r.allocHandles <+: m
  /-- Before there is one, so is the export that will make it. -/
  first : ∀ b p, (s.remRegMap b = none ∨ .NVL_RELEASE_MEM b ∈ s.channel) →
    s.pending.find? (fun p => p.base = b) = some p →
    ∀ r ∈ s.exportRegCache, r.base = b → r.allocHandles <+: p.allocHandles
  found : s.unknown = 0

namespace Inv

theorem init : Inv .init := by
  constructor <;> simp [State.init, State.pending]

theorem regMem (inv : Inv s) : Inv { s with regs := r :: s.regs } :=
  { inv with exported := fun r' h => List.mem_cons_of_mem _ (inv.exported r' h) }

theorem freeSegment (inv : Inv s) (h : ∀ r ∈ rs, r ∉ s.exportRegCache) : Inv (s.freeSegment rs) :=
  { inv with
    exported := fun r hr => List.mem_filter.mpr
      ⟨inv.exported r hr, decide_eq_true fun hrs => h r hrs hr⟩ }

theorem pending_exportMem : (s.exportMem r).pending = s.pending ++ [r] := by
  simp [State.pending, State.exportMem, List.filterMap_append]

theorem release_exportMem :
    .NVL_RELEASE_MEM b ∈ (s.exportMem r).channel ↔ .NVL_RELEASE_MEM b ∈ s.channel := by
  simp [State.exportMem]

theorem exported_of_none (inv : Inv s)
    (hmap : s.remRegMap b = none ∨ .NVL_RELEASE_MEM b ∈ s.channel)
    (hpending : s.pending.find? (fun p => p.base = b) = none) (hr : r ∈ s.exportRegCache) :
    r.base ≠ b := by
  intro hb
  rcases inv.reached r hr with himp | hpend
  · rcases hmap with hmap | hmsg
    · exact (inv.imported r himp).2 (hb ▸ hmap)
    · exact (inv.release b hmsg).2.1 r himp hb
  · simpa [hb] using List.find?_eq_none.mp hpending r hpend

theorem exportMem (inv : Inv s) (hr : r ∈ s.regs) (hmeets : s.Meets (.exportMem r)) :
    Inv (s.exportMem r) where
  exported r' h := by
    rcases List.mem_insert_iff.mp h with rfl | h
    · exact hr
    · exact inv.exported r' h
  imported r' h := by
    obtain ⟨hE, hm⟩ := inv.imported r' h
    exact ⟨List.mem_insert_of_mem hE, hm⟩
  pending p h := by
    rw [pending_exportMem, List.mem_append, List.mem_singleton] at h
    rcases h with h | rfl
    · exact List.mem_insert_of_mem (inv.pending p h)
    · exact List.mem_insert_self
  reached r' h := by
    rw [pending_exportMem, List.mem_append, List.mem_singleton]
    rcases List.mem_insert_iff.mp h with rfl | h
    · exact .inr (.inr rfl)
    · exact (inv.reached r' h).imp id .inl
  release b h := inv.release b (release_exportMem.mp h)
  order := by
    apply List.pairwise_append.mpr
    refine ⟨inv.order, List.pairwise_singleton .., ?_⟩
    intro msg _ msg' h
    rw [List.mem_singleton.mp h]
    simp
  owed b h := by
    obtain ⟨hm, hE⟩ := inv.owed b h
    refine ⟨hm, fun r' h' => ?_⟩
    rcases List.mem_insert_iff.mp h' with rfl | h'
    · rintro rfl
      exact hmeets.2 h
    · exact hE r' h'
  __ := inv
  reason b h := (inv.reason b h).imp release_exportMem.mpr id
  spans b m hm hmsg r' h hb := by
    have hmsg' := mt release_exportMem.mpr hmsg
    rcases List.mem_insert_iff.mp h with rfl | h
    · -- the mapping is there because some registration of the base is exported
      rcases inv.reason b (by rw [show s.remRegMap b = some m from hm]; simp) with h' | h' | h'
      · exact absurd h' hmsg'
      · exact absurd (hb ▸ h') hmeets.2
      · obtain ⟨r₀, h₀, hb₀⟩ := h'
        have hE := (inv.imported r₀ h₀).1
        exact (hmeets.1 r₀ hE (hb₀.trans hb.symm)).trans (inv.spans b m hm hmsg' r₀ hE hb₀)
    · exact inv.spans b m hm hmsg' r' h hb
  first b p hmap hp r' h hb := by
    rw [pending_exportMem, List.find?_append] at hp
    replace hmap := hmap.imp id release_exportMem.mp
    cases hfind : s.pending.find? (fun p => p.base = b) with
    | some q =>
      obtain rfl : q = p := by simpa [hfind] using hp
      have hq : q ∈ s.exportRegCache := inv.pending q (List.mem_of_find?_eq_some hfind)
      have hqb : q.base = b := by simpa using List.find?_some hfind
      rcases List.mem_insert_iff.mp h with rfl | h
      · exact hmeets.1 q hq (hqb.trans hb.symm)
      · exact inv.first b q hmap hfind r' h hb
    | none =>
      have hE : ∀ r₀ ∈ s.exportRegCache, r₀.base ≠ b := fun r₀ h₀ =>
        inv.exported_of_none hmap hfind h₀
      rcases List.mem_insert_iff.mp h with rfl | h
      · simp only [hfind, Option.none_or, List.find?_singleton, hb] at hp
        obtain rfl : r' = p := by simpa using hp
        exact List.prefix_rfl
      · exact absurd hb (hE r' h)

/-- What holds of a base whose last registration is about to leave. -/
theorem leaving (inv : Inv s) (hr : r ∈ s.exportRegCache) (halone : s.Alone r) :
    r ∈ s.imported ∧ .NVL_RELEASE_MEM r.base ∉ s.channel ∧ r.base ∉ s.owed ∧
      ∀ msg ∈ s.channel, msg.base ≠ r.base := by
  have himp : r ∈ s.imported := (inv.reached r hr).resolve_right fun h => halone.2 r h rfl
  have hmsg : .NVL_RELEASE_MEM r.base ∉ s.channel := fun h =>
    (inv.release _ h).2.1 r himp rfl
  refine ⟨himp, hmsg, fun h => (inv.owed _ h).2 r hr rfl, ?_⟩
  intro msg h
  cases msg with
  | NVL_EXPORT_MEM p =>
    apply halone.2 p
    exact List.mem_append_right _ (List.mem_filterMap.mpr ⟨_, h, rfl⟩)
  | NVL_RELEASE_MEM b =>
    rintro rfl
    exact hmsg h

variable {channel : List ControlMsg} {q : RegElem}

theorem mem_remove : q ∈ (s.remove r).exportRegCache ↔ q ∈ s.exportRegCache ∧ q ≠ r := by
  simp [State.remove]

theorem mem_imported_remove : q ∈ (s.remove r).imported ↔ q ∈ s.imported ∧ q ≠ r := by
  simp [State.remove]

theorem pending_remReleaseMem : (s.remReleaseMem r).pending = s.pending := by
  unfold State.remReleaseMem
  split <;> simp [State.pending, State.remove, List.filterMap_append]

theorem pending_skipRelease : (s.skipRelease r).pending = s.pending := by
  unfold State.skipRelease
  split <;> rfl

theorem remReleaseMem (inv : Inv s) (halone : r ∈ s.exportRegCache → s.Alone r) :
    Inv (s.remReleaseMem r) := by
  unfold State.remReleaseMem
  split
  case isFalse => exact inv
  case isTrue hr =>
    replace halone := halone hr
    obtain ⟨himp, hmsg, howed, hchannel⟩ := inv.leaving hr halone
    have hbase : ∀ q ∈ s.exportRegCache, q ≠ r → q.base ≠ r.base :=
      fun q hq hne hb => hne (halone.1 q hq hb)
    have hpending : ∀ (q : RegElem), q ∈ ({ s.remove r with
        channel := s.channel ++ [ControlMsg.NVL_RELEASE_MEM r.base] } : State).pending ↔
        q ∈ s.pending := by
      simp [State.pending, State.remove, List.filterMap_append]
    exact {
      exported := fun q hq => inv.exported q (mem_remove.mp hq).1
      imported := fun q hq => by
        obtain ⟨hq, hne⟩ := mem_imported_remove.mp hq
        exact ⟨mem_remove.mpr ⟨(inv.imported q hq).1, hne⟩, (inv.imported q hq).2⟩
      pending := fun q hq => by
        have hq := (hpending q).mp hq
        exact mem_remove.mpr ⟨inv.pending q hq, fun h => halone.2 q hq (h ▸ rfl)⟩
      reached := fun q hq => by
        obtain ⟨hq, hne⟩ := mem_remove.mp hq
        exact (inv.reached q hq).imp (fun h => mem_imported_remove.mpr ⟨h, hne⟩) (hpending q).mpr
      release := fun b hb => by
        rcases List.mem_append.mp hb with hb | hb
        · obtain ⟨h1, h2, h3, h4⟩ := inv.release b hb
          exact ⟨h1, fun q hq => h2 q (mem_imported_remove.mp hq).1, h3, h4⟩
        · obtain rfl : b = r.base := by simpa using hb
          refine ⟨(inv.imported r himp).2, fun q hq => ?_, fun q hq => ?_, howed⟩
          · obtain ⟨hq, hne⟩ := mem_imported_remove.mp hq
            exact hbase q (inv.imported q hq).1 hne
          · exact halone.2 q (List.mem_append_left _ hq)
      order := by
        apply List.pairwise_append.mpr
        refine ⟨inv.order, List.pairwise_singleton .., ?_⟩
        intro msg hm msg' h _
        rw [List.mem_singleton.mp h]
        exact hchannel msg hm
      owed := fun b hb =>
        ⟨(inv.owed b hb).1, fun q hq => (inv.owed b hb).2 q (mem_remove.mp hq).1⟩
      __ := inv
      reason := fun b hb => by
        rcases inv.reason b hb with h | h | ⟨q, hq, rfl⟩
        · exact .inl (List.mem_append_left _ h)
        · exact .inr (.inl h)
        · by_cases hne : q = r
          · subst hne
            exact .inl (by simp)
          · exact .inr (.inr ⟨q, mem_imported_remove.mpr ⟨hq, hne⟩, rfl⟩)
      spans := fun b m hm hb q hq hqb =>
        inv.spans b m hm (fun h => hb (List.mem_append_left _ h)) q (mem_remove.mp hq).1 hqb
      first := fun b p hb hp q hq hqb => by
        obtain ⟨hq, hne⟩ := mem_remove.mp hq
        have hp : s.pending.find? (fun p => p.base = b) = some p := by
          simpa [State.pending, State.remove, List.filterMap_append] using hp
        refine inv.first b p (hb.imp id fun h => ?_) hp q hq hqb
        rcases List.mem_append.mp h with h | h
        · exact h
        · exact absurd (hqb.trans (by simpa using h)) (hbase q hq hne) }

theorem skipRelease (inv : Inv s) (halone : r ∈ s.exportRegCache → s.Alone r) :
    Inv (s.skipRelease r) := by
  unfold State.skipRelease
  split
  case isFalse => exact inv
  case isTrue hr =>
    replace halone := halone hr
    obtain ⟨himp, hmsg, howed, hchannel⟩ := inv.leaving hr halone
    have hbase : ∀ q ∈ s.exportRegCache, q ≠ r → q.base ≠ r.base :=
      fun q hq hne hb => hne (halone.1 q hq hb)
    exact {
      exported := fun q hq => inv.exported q (mem_remove.mp hq).1
      imported := fun q hq => by
        obtain ⟨hq, hne⟩ := mem_imported_remove.mp hq
        exact ⟨mem_remove.mpr ⟨(inv.imported q hq).1, hne⟩, (inv.imported q hq).2⟩
      pending := fun q hq =>
        mem_remove.mpr ⟨inv.pending q hq, fun h => halone.2 q hq (h ▸ rfl)⟩
      reached := fun q hq => by
        obtain ⟨hq, hne⟩ := mem_remove.mp hq
        exact (inv.reached q hq).imp (fun h => mem_imported_remove.mpr ⟨h, hne⟩) id
      release := fun b hb => by
        obtain ⟨h1, h2, h3, h4⟩ := inv.release b hb
        refine ⟨h1, fun q hq => h2 q (mem_imported_remove.mp hq).1, h3, ?_⟩
        rw [List.mem_cons, not_or]
        exact ⟨fun h => hmsg (h ▸ hb), h4⟩
      __ := inv
      owed := fun b hb => by
        rcases List.mem_cons.mp hb with rfl | hb
        · refine ⟨(inv.imported r himp).2, fun q hq => ?_⟩
          obtain ⟨hq, hne⟩ := mem_remove.mp hq
          exact hbase q hq hne
        · exact ⟨(inv.owed b hb).1, fun q hq => (inv.owed b hb).2 q (mem_remove.mp hq).1⟩
      owedOnce := List.nodup_cons.mpr ⟨howed, inv.owedOnce⟩
      reason := fun b hb => by
        rcases inv.reason b hb with h | h | ⟨q, hq, rfl⟩
        · exact .inl h
        · exact .inr (.inl (List.mem_cons_of_mem _ h))
        · by_cases hne : q = r
          · subst hne
            exact .inr (.inl List.mem_cons_self)
          · exact .inr (.inr ⟨q, mem_imported_remove.mpr ⟨hq, hne⟩, rfl⟩)
      spans := fun b m hm hb q hq hqb => inv.spans b m hm hb q (mem_remove.mp hq).1 hqb
      first := fun b p hb hp q hq hqb => inv.first b p hb hp q (mem_remove.mp hq).1 hqb }

theorem remove_of_not_mem (h : r ∉ s.exportRegCache) :
    s.exportRegCache.filter (· ≠ r) = s.exportRegCache :=
  List.filter_eq_self.mpr fun _ hq => decide_eq_true fun hqr => h (hqr ▸ hq)

theorem exported_remReleaseMem :
    (s.remReleaseMem r).exportRegCache = s.exportRegCache.filter (· ≠ r) := by
  unfold State.remReleaseMem
  split
  case isTrue => rfl
  case isFalse h => exact (remove_of_not_mem h).symm

theorem exported_skipRelease :
    (s.skipRelease r).exportRegCache = s.exportRegCache.filter (· ≠ r) := by
  unfold State.skipRelease
  split
  case isTrue => rfl
  case isFalse h => exact (remove_of_not_mem h).symm

/-- Either way of leaving, for all the registrations of a segment. -/
theorem foldl {f : State → RegElem → State}
    (hE : ∀ s r, (f s r).exportRegCache = s.exportRegCache.filter (· ≠ r))
    (hpending : ∀ s r, (f s r).pending = s.pending)
    (hinv : ∀ s r, Inv s → (r ∈ s.exportRegCache → s.Alone r) → Inv (f s r))
    (inv : Inv s) (halone : ∀ r ∈ rs, r ∈ s.exportRegCache → s.Alone r) :
    Inv (rs.foldl f s) ∧
      (rs.foldl f s).exportRegCache = s.exportRegCache.filter (· ∉ rs) := by
  induction rs generalizing s with
  | nil => simpa using inv
  | cons r rs ih =>
    have hsub : ∀ q, q ∈ (f s r).exportRegCache → q ∈ s.exportRegCache := by
      intro q hq
      rw [hE] at hq
      exact List.mem_of_mem_filter hq
    have hnext := ih (hinv s r inv (halone r List.mem_cons_self)) fun q hq hqE => by
      obtain ⟨h1, h2⟩ := halone q (List.mem_cons_of_mem _ hq) (hsub q hqE)
      exact ⟨fun q' hq' => h1 q' (hsub q' hq'), by rwa [hpending]⟩
    refine ⟨hnext.1, ?_⟩
    change (rs.foldl f (f s r)).exportRegCache = _
    rw [hnext.2, hE, List.filter_filter]
    congr 1
    ext q
    simp [Bool.and_comm]

section

variable (inv : Inv s)
include inv

theorem deregMem {skip : Bool} (hmeets : s.Meets (.deregMem rs skip)) :
    Inv (s.deregMem rs skip) := by
  unfold State.deregMem
  cases skip with
  | false =>
    obtain ⟨h, hE⟩ := inv.foldl (fun _ _ => exported_remReleaseMem)
      (fun _ _ => pending_remReleaseMem) (fun _ _ => Inv.remReleaseMem) hmeets
    apply h.freeSegment
    intro r hr
    simp [hE, hr]
  | true =>
    obtain ⟨h, hE⟩ := inv.foldl (fun _ _ => exported_skipRelease)
      (fun _ _ => pending_skipRelease) (fun _ _ => Inv.skipRelease) hmeets
    apply h.freeSegment
    intro r hr
    simp [hE, hr]

theorem deregDynamic (hmeets : s.Meets (.deregDynamic r)) :
    Inv ((s.remReleaseMem r).freeSegment [r]) := by
  apply (inv.remReleaseMem hmeets).freeSegment
  intro q hq
  rw [List.mem_singleton.mp hq, exported_remReleaseMem]
  simp

theorem arriveExport
    (h : s.channel = .NVL_EXPORT_MEM r :: channel) :
    Inv (s.arrive (.NVL_EXPORT_MEM r) channel) := by
  have hpending : (s.arrive (.NVL_EXPORT_MEM r) channel).pending = s.pending := by
    simp [State.pending, State.arrive, h]
  have hmsg : ∀ b, .NVL_RELEASE_MEM b ∈ s.channel ↔ ControlMsg.NVL_RELEASE_MEM b ∈ channel := by
    simp [h]
  have horder := h ▸ inv.order
  exact {
    __ := inv
    pending := fun q hq => inv.pending q (hpending ▸ hq)
    reached := fun q hq => hpending ▸ inv.reached q hq
    release := fun b hb => by
      obtain ⟨h1, h2, h3, h4⟩ := inv.release b ((hmsg b).mpr hb)
      refine ⟨h1, h2, fun q hq => ?_, h4⟩
      rcases List.mem_append.mp hq with hq | hq
      · exact h3 q hq
      · rw [List.mem_singleton.mp hq]
        exact (List.pairwise_cons.mp horder).1 _ hb rfl
    order := (List.pairwise_cons.mp horder).2
    reason := fun b hb => (inv.reason b hb).imp (hmsg b).mp id
    spans := fun b m hm hb => inv.spans b m hm (mt (hmsg b).mp hb)
    first := fun b p hb hp => inv.first b p (hb.imp id (hmsg b).mpr) (hpending ▸ hp) }

theorem arriveRelease
    (h : s.channel = .NVL_RELEASE_MEM b :: channel) :
    Inv (s.arrive (.NVL_RELEASE_MEM b) channel) := by
  obtain ⟨hmap, himp, hrec, howed⟩ := inv.release b (by simp [h])
  have horder := List.pairwise_cons.mp (h ▸ inv.order)
  have hlast : .NVL_RELEASE_MEM b ∉ channel := fun hb => horder.1 _ hb rfl rfl
  have hmsg : ∀ b', b' ≠ b →
      (.NVL_RELEASE_MEM b' ∈ s.channel ↔ ControlMsg.NVL_RELEASE_MEM b' ∈ channel) := by
    intro b' hne
    simp [h, hne]
  have harrive : s.arrive (.NVL_RELEASE_MEM b) channel =
      { s with channel := channel, remRegMap := update s.remRegMap b none } := by
    simp [State.arrive, State.releaseMemCb, releaseRemReg, hmap]
  rw [harrive]
  have hpending : ({ s with channel := channel, remRegMap := update s.remRegMap b none } :
      State).pending = s.pending := by
    simp only [State.pending, h]
    rfl
  have hne : ∀ b', ControlMsg.NVL_RELEASE_MEM b' ∈ channel → b' ≠ b := by
    rintro b' hb' rfl
    exact hlast hb'
  exact {
    __ := inv
    imported := fun q hq => by
      refine ⟨(inv.imported q hq).1, ?_⟩
      simp only [update_of_ne (himp q hq)]
      exact (inv.imported q hq).2
    pending := fun q hq => inv.pending q (hpending ▸ hq)
    reached := fun q hq => hpending ▸ inv.reached q hq
    release := fun b' hb' => by
      simp only [update_of_ne (hne b' hb')]
      exact inv.release b' ((hmsg b' (hne b' hb')).mpr hb')
    order := horder.2
    owed := fun b' hb' => by
      have hne : b' ≠ b := fun h => howed (h ▸ hb')
      simp only [update_of_ne hne]
      exact inv.owed b' hb'
    reason := fun b' hb' => by
      by_cases hbb : b' = b
      · exact absurd (by simp [hbb]) hb'
      · simp only [update_of_ne hbb] at hb'
        exact (inv.reason b' hb').imp (hmsg b' hbb).mp id
    spans := fun b' m hm hb' => by
      by_cases hbb : b' = b
      · simp [hbb] at hm
      · simp only [update_of_ne hbb] at hm
        exact inv.spans b' m hm (mt (hmsg b' hbb).mp hb')
    first := fun b' p hb' hp => by
      rw [hpending] at hp
      by_cases hbb : b' = b
      · exact inv.first b' p (.inr (by simp [h, hbb])) hp
      · simp only [update_of_ne hbb] at hb'
        exact inv.first b' p (hb'.imp id (hmsg b' hbb).mpr) hp }

theorem importMem (h : s.received = r :: rest) : Inv (s.importMem r rest) := by
  have hpending : s.pending = r :: (s.importMem r rest).pending := by
    simp [State.pending, State.importMem, h]
  have hr : r ∈ s.exportRegCache := inv.pending r (by simp [hpending])
  have hmsg : .NVL_RELEASE_MEM r.base ∉ s.channel := fun hb =>
    (inv.release _ hb).2.2.1 r (by simp [h]) rfl
  have howed : r.base ∉ s.owed := fun hb => (inv.owed _ hb).2 r hr rfl
  have hother : ∀ b, b ≠ r.base → (s.importMem r rest).remRegMap b = s.remRegMap b := by
    intro b hb
    cases hm : s.remRegMap r.base with
    | some m => rw [remRegMap_importMem_some hm]
    | none => rw [remRegMap_importMem_none hm, update_of_ne hb]
  have hown : ∃ m, (s.importMem r rest).remRegMap r.base = some m ∧
      ∀ q ∈ s.exportRegCache, q.base = r.base → q.allocHandles <+: m := by
    cases hm : s.remRegMap r.base with
    | some m =>
      refine ⟨m, ?_, inv.spans _ m hm hmsg⟩
      rw [remRegMap_importMem_some hm, hm]
    | none =>
      refine ⟨r.allocHandles, ?_, inv.first _ r (.inl hm) (by simp [hpending])⟩
      rw [remRegMap_importMem_none hm, update_self]
  obtain ⟨m₀, hm₀, hspan⟩ := hown
  have hkept : ∀ b, s.remRegMap b ≠ none → (s.importMem r rest).remRegMap b ≠ none := by
    intro b hb
    by_cases hbr : b = r.base
    · simp [hbr, hm₀]
    · rwa [hother b hbr]
  exact {
    __ := inv
    imported := fun q hq => by
      rcases List.mem_insert_iff.mp hq with rfl | hq
      · exact ⟨hr, by simp [hm₀]⟩
      · exact ⟨(inv.imported q hq).1, hkept _ (inv.imported q hq).2⟩
    pending := fun q hq => inv.pending q (hpending ▸ List.mem_cons_of_mem _ hq)
    reached := fun q hq => by
      rcases inv.reached q hq with hq | hq
      · exact .inl (List.mem_insert_of_mem hq)
      · rw [hpending, List.mem_cons] at hq
        rcases hq with rfl | hq
        · exact .inl List.mem_insert_self
        · exact .inr hq
    release := fun b hb => by
      obtain ⟨h1, h2, h3, h4⟩ := inv.release b hb
      refine ⟨hkept b h1, fun q hq => ?_, fun q hq => h3 q (h ▸ List.mem_cons_of_mem _ hq), h4⟩
      rcases List.mem_insert_iff.mp hq with rfl | hq
      · rintro rfl
        exact hmsg hb
      · exact h2 q hq
    owed := fun b hb => ⟨hkept b (inv.owed b hb).1, (inv.owed b hb).2⟩
    reason := fun b hb => by
      by_cases hbr : b = r.base
      · exact .inr (.inr ⟨r, List.mem_insert_self, hbr.symm⟩)
      · rw [hother b hbr] at hb
        refine (inv.reason b hb).imp id (Or.imp id ?_)
        rintro ⟨q, hq, hqb⟩
        exact ⟨q, List.mem_insert_of_mem hq, hqb⟩
    spans := fun b m hm hb q hq hqb => by
      by_cases hbr : b = r.base
      · subst hbr
        obtain rfl : m₀ = m := Option.some.inj (hm₀.symm.trans hm)
        exact hspan q hq hqb
      · rw [hother b hbr] at hm
        exact inv.spans b m hm hb q hq hqb
    first := fun b p hb hp q hq hqb => by
      by_cases hbr : b = r.base
      · subst hbr
        rw [hm₀] at hb
        exact absurd hb (by simp [State.importMem, hmsg])
      · rw [hother b hbr] at hb
        refine inv.first b p hb ?_ q hq hqb
        rw [hpending, List.find?_cons_of_neg (by simpa using Ne.symm hbr)]
        exact hp }

theorem deregRemReg {m : RemRegMap} (hb : b ∈ s.owed) (hm : releaseRemReg s.remRegMap b = some m) :
    Inv { s with remRegMap := m, owed := s.owed.erase b } := by
  obtain ⟨-, rfl⟩ := releaseRemReg_eq_some.mp hm
  obtain ⟨-, hnone⟩ := inv.owed b hb
  have hmsg : .NVL_RELEASE_MEM b ∉ s.channel := fun h => (inv.release b h).2.2.2 hb
  exact {
    __ := inv
    imported := fun q hq => by
      refine ⟨(inv.imported q hq).1, ?_⟩
      simp only [update_of_ne (hnone q (inv.imported q hq).1)]
      exact (inv.imported q hq).2
    release := fun b' hb' => by
      have hne : b' ≠ b := fun h => hmsg (h ▸ hb')
      simp only [update_of_ne hne]
      obtain ⟨h1, h2, h3, h4⟩ := inv.release b' hb'
      exact ⟨h1, h2, h3, fun h => h4 (List.mem_of_mem_erase h)⟩
    owed := fun b' hb' => by
      obtain ⟨hne, hb'⟩ := inv.owedOnce.mem_erase_iff.mp hb'
      simp only [update_of_ne hne]
      exact inv.owed b' hb'
    owedOnce := inv.owedOnce.erase b
    reason := fun b' hb' => by
      by_cases hbb : b' = b
      · exact absurd (by simp [hbb]) hb'
      · simp only [update_of_ne hbb] at hb'
        exact (inv.reason b' hb').imp id (Or.imp (inv.owedOnce.mem_erase_iff.mpr ⟨hbb, ·⟩) id)
    spans := fun b' m hm' hb' q hq hqb => by
      have hbb : b' ≠ b := fun h => hnone q hq (hqb.trans h)
      simp only [update_of_ne hbb] at hm'
      exact inv.spans b' m hm' hb' q hq hqb
    first := fun b' p hb' hp q hq hqb => by
      have hbb : b' ≠ b := fun h => hnone q hq (hqb.trans h)
      simp only [update_of_ne hbb] at hb'
      exact inv.first b' p hb' hp q hq hqb }

theorem step {op : Op} (hmeets : s.Meets op) (h : s.step op = some s') : Inv s' := by
  cases op with
  | regMem r =>
    simp only [State.step, Option.ite_none_left_eq_some, Option.some.injEq] at h
    exact h.2 ▸ inv.regMem
  | exportMem r =>
    simp only [State.step, Option.ite_none_right_eq_some, Option.some.injEq] at h
    exact h.2 ▸ inv.exportMem h.1 hmeets
  | deregMem rs skip =>
    simp only [State.step, Option.ite_none_right_eq_some, Option.some.injEq] at h
    exact h.2 ▸ inv.deregMem hmeets
  | deregDynamic r =>
    simp only [State.step, Option.ite_none_right_eq_some, Option.some.injEq] at h
    exact h.2 ▸ inv.deregDynamic hmeets
  | arrive =>
    cases hc : s.channel with
    | nil => simp [State.step, hc] at h
    | cons msg channel =>
      simp only [State.step, hc, Option.some.injEq] at h
      subst h
      cases msg with
      | NVL_EXPORT_MEM r => exact inv.arriveExport hc
      | NVL_RELEASE_MEM b => exact inv.arriveRelease hc
  | importMem =>
    cases hc : s.received with
    | nil => simp [State.step, hc] at h
    | cons r rest =>
      simp only [State.step, hc, Option.some.injEq] at h
      exact h ▸ inv.importMem hc
  | deregRemReg b =>
    cases hc : releaseRemReg s.remRegMap b with
    | none => simp [State.step, hc] at h
    | some m =>
      simp only [State.step, hc, Option.some.injEq] at h
      exact h ▸ inv.deregRemReg hmeets hc

theorem sound : s.Sound where
  mapped r _ hr := by
    obtain ⟨hE, hm⟩ := inv.imported r hr
    obtain ⟨m, hm⟩ := Option.ne_none_iff_exists'.mp hm
    exact ⟨m, hm, inv.spans _ m hm (fun h => (inv.release _ h).2.1 r hr rfl) r hE rfl⟩
  found := inv.found
  gone b hE hmsg _ howed := by
    by_contra hm
    rcases inv.reason b hm with h | h | ⟨r, hr, hb⟩
    · exact hmsg _ h rfl
    · exact howed h
    · exact hE r (inv.imported r hr).1 hb

end

end Inv

theorem reachable_inv (h : Reachable State.Meets s) : Inv s := by
  induction h with
  | init => exact Inv.init
  | step _ hmeets hstep ih => exact ih.step hmeets hstep

/-- One allocation is registered twice. -/
def whole : RegElem := ⟨0, 4096, [7]⟩

def part : RegElem := ⟨1, 4096, [7]⟩

end TorchComms.Mapper.Nvl
