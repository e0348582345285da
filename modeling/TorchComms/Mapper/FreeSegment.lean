import TorchComms.Mapper.RegCoherence

/-! # What `freeSegment` deregisters

The index lists an element under each of its segments, and freeing a segment erases the list of
that segment only. While a freed segment's elements lie over it alone, the index stays exact: every
pointer in it is a live element over the key, and a freed segment takes with it exactly the
elements registered over it.
-/
namespace TorchComms.Mapper

open Foundation AvlTree InvertedIndex

namespace CtranMapperRegCache

/-- A freed segment takes exactly the elements over it out of the table, deregistered. -/
structure FreesExactly (t : CtranMapperRegCache) (segHdl : ℕ) (out : Freed)
    (t' : CtranMapperRegCache) : Prop where
  freed : out.freed = true → ∃ segment, t.segmentPtr segHdl = .ok segment ∧ segment ≠ 0 ∧
    (∀ regHdl, regHdl ∈ out.regElems.map Prod.fst ↔ t.Over regHdl segment) ∧
    ∀ x ∈ out.regElems, x.2.state = .DEREGISTERED
  inUse : out.freed = false → out.regElems = []
  others : ∀ regHdl, t'.regHdlToElemMap.lookup regHdl =
    if regHdl ∈ out.regElems.map Prod.fst then none else t.regHdlToElemMap.lookup regHdl

/-- Every element keeps its segments. -/
def Keeps (t t' : CtranMapperRegCache) : Prop :=
  ∀ regHdl e, t.regHdlToElemMap.lookup regHdl = some e →
    ∃ e', t'.regHdlToElemMap.lookup regHdl = some e' ∧ e'.segments_ = e.segments_ ∧
      e'.isDynamic_ = e.isDynamic_

/-- The elements that a step takes out of the table are the ones it should. -/
def StepExact (t t' : CtranMapperRegCache) : Op → Prop
  | .freeSegment d segHdl => ∃ out, t.freeSegment d segHdl = .ok (out, t') ∧
      t.FreesExactly segHdl out t'
  | .deregDynamic _ regHdl => ∀ other, other ≠ regHdl →
      t'.regHdlToElemMap.lookup other = t.regHdlToElemMap.lookup other
  | _ => t.Keeps t'

/-! ### The condition -/

/-- The segment that a call with the handle will free. -/
def freedSegment (t : CtranMapperRegCache) (segHdl : ℕ) : Option ℕ :=
  match t.segmentPtr segHdl with
  | .error _ => none
  | .ok segment =>
    match t.segments.lookup segment with
    | none => none
    | some seg => if seg.refCount = 1 then some segment else none

/-- The elements over the segment lie over it alone, no backend refuses them, and the tree that
holds it has a root. -/
def LiesAlone (t : CtranMapperRegCache) (d : Deregs) : Option ℕ → Prop
  | none => True
  | some segment => t.segmentsAvl_.root_ ≠ .null ∧ ∀ x ∈ t.regHdlToElemMap.entries,
      x.2.isDynamic_ = false → segment ∈ x.2.segments_ →
        (∀ other ∈ x.2.segments_, other = segment) ∧ d.Accepts x.2

def NotCached : Option CtranMapperRegElem → Prop
  | none => True
  | some e => e.isDynamic_ = true

/-- A segment is freed alone, and `deregDynamic` is for dynamic elements. -/
def Alone (t : CtranMapperRegCache) : Op → Prop
  | .freeSegment d segHdl => t.LiesAlone d (t.freedSegment segHdl)
  | .deregDynamic _ regHdl => NotCached (t.regHdlToElemMap.lookup regHdl)
  | _ => True

def FreesAlone (past : List Op) (t : CtranMapperRegCache) (op : Op) : Prop :=
  WellFormed past t op ∧ t.Alone op

/-! ### The steps -/

/-- A step keeps the invariant and takes out what it should, or it aborts. -/
def StepOk (t : CtranMapperRegCache) (op : Op) : Prop :=
  (∃ t', t.step op = .ok t' ∧ (∃ es, t'.Coherent es) ∧ t.StepExact t' op) ∨
    t.step op = .error .abort

theorem Keeps.of_eq {t t' : CtranMapperRegCache} (h : t'.regHdlToElemMap = t.regHdlToElemMap) :
    t.Keeps t' := by
  intro regHdl e he
  exact ⟨e, by rw [h, he], rfl, rfl⟩

theorem Keeps.of_insert {t t' : CtranMapperRegCache} {regHdl : ℕ} {e : CtranMapperRegElem}
    (h : t'.regHdlToElemMap = t.regHdlToElemMap.insert regHdl e)
    (hsame : ∀ e', t.regHdlToElemMap.lookup regHdl = some e' →
      e.segments_ = e'.segments_ ∧ e.isDynamic_ = e'.isDynamic_) : t.Keeps t' := by
  intro other e' he'
  rw [h]
  by_cases heq : other = regHdl
  · subst heq
    exact ⟨e, AList.lookup_insert _, hsame e' he'⟩
  · exact ⟨e', by rw [AList.lookup_insert_ne heq, he'], rfl, rfl⟩

theorem takeRegElems_dropped (t : CtranMapperRegCache) (segment : ℕ) :
    ∃ elems regs index, t.takeRegElems segment =
        (elems, { t with regHdlToElemMap := regs, segToRegElemsMap := index }) ∧
      Dropped t.regHdlToElemMap t.segToRegElemsMap segment regs index ∧
      ∀ regHdl e, (regHdl, e) ∈ elems ↔
        t.regHdlToElemMap.lookup regHdl = some e ∧ Filed t.segToRegElemsMap segment regHdl := by
  unfold CtranMapperRegCache.takeRegElems
  cases hlisted : t.segToRegElemsMap.lookup segment with
  | none =>
    refine ⟨[], t.regHdlToElemMap, t.segToRegElemsMap, rfl, dropped_of_none hlisted, ?_⟩
    rintro regHdl e
    constructor
    · intro h
      cases h
    · rintro ⟨_, regHdls, hregHdls, _⟩
      rw [hlisted] at hregHdls
      cases hregHdls
  | some regHdls =>
    refine ⟨_, _, _, rfl, dropped_take hlisted, ?_⟩
    intro regHdl e
    rw [InvertedIndex.mem_take, and_comm]
    unfold Filed
    rw [hlisted]
    simp

/-- The elements taken out with a segment are those that carry it. -/
theorem takeRegElems_spec {t : CtranMapperRegCache} {segment : ℕ}
    (hindex : Exact CtranMapperRegElem.segments_ t.regHdlToElemMap t.segToRegElemsMap)
    (halone : ∀ regHdl e, t.regHdlToElemMap.lookup regHdl = some e → segment ∈ e.segments_ →
      ∀ other ∈ e.segments_, other = segment) :
    ∃ elems regs index, t.takeRegElems segment =
        (elems, { t with regHdlToElemMap := regs, segToRegElemsMap := index }) ∧
      Exact CtranMapperRegElem.segments_ regs index ∧
      (∀ regHdl e, (regHdl, e) ∈ elems ↔
        t.regHdlToElemMap.lookup regHdl = some e ∧ segment ∈ e.segments_) ∧
      ∀ regHdl, regs.lookup regHdl =
        if regHdl ∈ elems.map Prod.fst then none else t.regHdlToElemMap.lookup regHdl := by
  rcases t.takeRegElems_dropped segment with ⟨elems, regs, index, htake, hdrop, hmem⟩
  refine ⟨elems, regs, index, htake, hindex.dropped hdrop halone, ?_, ?_⟩
  · intro regHdl e
    rw [hmem, hindex segment regHdl]
    constructor
    · rintro ⟨he, e', he', hin⟩
      rw [he, Option.some.injEq] at he'
      exact ⟨he, he' ▸ hin⟩
    · rintro ⟨he, hin⟩
      exact ⟨he, e, he, hin⟩
  · intro regHdl
    apply Option.ext
    intro e
    rw [hdrop.items]
    by_cases htaken : regHdl ∈ elems.map Prod.fst
    · rw [if_pos htaken]
      rcases List.mem_map.mp htaken with ⟨y, hy, rfl⟩
      simp [((hmem y.1 y.2).mp hy).2]
    · rw [if_neg htaken, and_iff_left_iff_imp]
      intro he hfiled
      exact htaken (List.mem_map_of_mem ((hmem regHdl e).mpr ⟨he, hfiled⟩))

section Steps

variable {t : CtranMapperRegCache} {es : List Elem} (hcoh : t.Coherent es)
include hcoh

theorem Coherent.cacheSegment_ok (drv : Driver) {ptr len newSeg newNode : ℕ} (cudaDev : ℤ)
    (ncclManaged : Bool) (hseg : t.Fresh newSeg) (hnode : t.Fresh newNode)
    (hw : ptr + len < 2 ^ 64) :
    t.StepOk (.cacheSegment drv ptr len cudaDev ncclManaged newSeg newNode) := by
  simp only [StepOk, step, cacheSegment]
  cases hsearch : t.segmentsAvl_.search ptr len with
  | some avlHdl =>
    rcases hcoh.stored.search hsearch with ⟨x, _, hptr, _, s, hs, hderef, _, href⟩
    left
    simp only [hptr, hderef]
    exact ⟨_, rfl, ⟨es, hcoh.setRefCount _ hs (by omega)⟩, Keeps.of_eq rfl⟩
  | none =>
    cases hpin : pinRange drv ptr cudaDev len with
    | error c => exact Or.inl ⟨t, rfl, ⟨es, hcoh⟩, Keeps.of_eq rfl⟩
    | ok ranges =>
      rcases pinRange_spec hpin with ⟨range, rest, rfl, hnowrap⟩
      cases rest with
      | cons second rest => exact Or.inr rfl
      | nil =>
        left
        cases hins : t.segmentsAvl_.insert ⟨newNode, range.buf, range.len, newSeg⟩ with
        | mk avlHdl avl =>
          have hadd := hcoh.addSegment hseg hnode (s := ⟨range, cudaDev, ncclManaged, 1, avlHdl⟩)
            (hnowrap hw) rfl hins rfl
          exact ⟨_, by simp only [hins]; rfl, ⟨_, hadd⟩, Keeps.of_eq rfl⟩

theorem Coherent.searchRegElem_ok {t' : CtranMapperRegCache} {order : List ℕ}
    {ptr len regHdl : ℕ} (h : t.searchRegElem order ptr len = some (regHdl, t')) :
    t'.Coherent es ∧ t.Keeps t' := by
  rcases searchRegElem_spec h with ⟨e, he, rfl⟩
  refine ⟨hcoh.hit he, Keeps.of_insert rfl ?_⟩
  intro e' he'
  rw [he, Option.some.injEq] at he'
  rw [he']
  exact ⟨rfl, rfl⟩

variable {newElem : ℕ}

theorem Coherent.regRange_ok (drv : Driver) (b : Backends) (order : List ℕ) (ptr len : ℕ)
    (cudaDev : ℤ) (hnew : t.Fresh newElem) :
    t.StepOk (.regRange drv b order ptr len cudaDev newElem) := by
  left
  simp only [step, regRange, regRangeLocked]
  cases hsearch : t.searchRegElem order ptr len with
  | some r =>
    rcases hcoh.searchRegElem_ok hsearch with ⟨hcoh', hkeeps⟩
    exact ⟨r.2, rfl, ⟨es, hcoh'⟩, hkeeps⟩
  | none =>
    cases hpin : pinRange drv ptr cudaDev len with
    | error c => exact ⟨t, rfl, ⟨es, hcoh⟩, Keeps.of_eq rfl⟩
    | ok ranges =>
      rcases pinRange_spec hpin with ⟨range, rest, rfl, _⟩
      rcases hcoh.stored.findSegments (range :: rest) with ⟨r, hr, hall⟩
      simp only [hr]
      cases r with
      | none => exact ⟨t, rfl, ⟨es, hcoh⟩, Keeps.of_eq rfl⟩
      | some segs =>
        have hfound := hall segs rfl
        cases segs with
        | nil => cases hfound
        | cons first segs =>
          simp only
          rcases doRegister_spec b (e := {
              buf := first.2.range.buf
              len := ((first :: segs).map fun s => s.2.range.len).sum
              cudaDev_ := cudaDev
              segments_ := (first :: segs).map Prod.fst
              type_ := first.2.range.type }) rfl rfl with ⟨res, hres, hspec⟩
          rw [hres]
          cases res with
          | error c => exact ⟨t, rfl, ⟨es, hcoh⟩, Keeps.of_eq rfl⟩
          | ok e =>
            rcases hspec e rfl with ⟨hstate, hsegs, hdyn, _⟩
            have hok : ElemOk es e := by
              refine ⟨?_, hstate, ?_⟩
              · intro segment hin
                rw [hsegs] at hin
                rcases List.mem_map.mp hin with ⟨y, hy, rfl⟩
                exact FoundBy.live hfound y hy
              · intro htrue
                rw [hdyn] at htrue
                cases htrue
            have hnone := hnew.2.2.2.1
            refine ⟨_, rfl, ⟨es, hcoh.addRegElem hnone hok⟩, Keeps.of_insert rfl ?_⟩
            intro e' he'
            rw [hnone] at he'
            cases he'

theorem Coherent.regDynamic_ok (drv : Driver) (b : Backends) (ptr len : ℕ) (cudaDev : ℤ)
    (hnew : t.Fresh newElem) : t.StepOk (.regDynamic drv b ptr len cudaDev newElem) := by
  left
  simp only [step, regDynamic]
  cases hpin : pinRange drv ptr cudaDev len with
  | error c => exact ⟨t, rfl, ⟨es, hcoh⟩, Keeps.of_eq rfl⟩
  | ok ranges =>
    rcases pinRange_spec hpin with ⟨range, rest, rfl, _⟩
    simp only
    rcases doRegister_spec b (e := {
        buf := range.buf
        len := ((range :: rest).map CtranMapperSegmentRange.len).sum
        cudaDev_ := cudaDev
        isDynamic_ := true
        type_ := range.type }) rfl rfl with ⟨res, hres, hspec⟩
    rw [hres]
    cases res with
    | error c => exact ⟨t, rfl, ⟨es, hcoh⟩, Keeps.of_eq rfl⟩
    | ok e =>
      rcases hspec e rfl with ⟨hstate, hsegs, _⟩
      have hok : ElemOk es e := by
        refine ⟨?_, hstate, fun _ => hsegs⟩
        intro segment hin
        rw [hsegs] at hin
        cases hin
      have hnone := hnew.2.2.2.1
      refine ⟨_, rfl, ⟨es, hcoh.addDynamic hnone hok hsegs⟩, Keeps.of_insert rfl ?_⟩
      intro e' he'
      rw [hnone] at he'
      cases he'

theorem Coherent.deregDynamic_ok (d : Deregs) {regHdl : ℕ}
    (hdyn : ∀ e, t.regHdlToElemMap.lookup regHdl = some e → e.isDynamic_ = true) :
    t.StepOk (.deregDynamic d regHdl) := by
  left
  simp only [step, deregDynamic]
  cases he : t.regHdlToElemMap.lookup regHdl with
  | none => exact ⟨t, rfl, ⟨es, hcoh⟩, fun _ _ => rfl⟩
  | some e =>
    rcases doDeregister_spec d (hcoh.elems regHdl e he).registered with ⟨c, e', hdereg, _⟩
    simp only [hdereg]
    exact ⟨_, rfl, ⟨es, hcoh.eraseDynamic he (hdyn e he)⟩,
      fun other hne => AList.lookup_erase_ne hne⟩

/-- What is left after a segment and the elements over it are gone. -/
theorem Coherent.without {x : Elem} (hx : x ∈ es) {s : CtranMapperSegment} {avl : CtranAvlTree}
    (havl : avl.Represents (TreeElem.dropHdl x.hdl es)) {regs : RegElems}
    {index : AList fun _ : ℕ => List ℕ} {returned : List ℕ}
    (hindex : Exact CtranMapperRegElem.segments_ regs index)
    (hregs : ∀ regHdl e, regs.lookup regHdl = some e →
      t.regHdlToElemMap.lookup regHdl = some e ∧ x.val ∉ e.segments_) :
    Coherent ⟨avl, (t.segments.insert x.val s).erase x.val, regs, index, returned⟩
      (TreeElem.dropHdl x.hdl es) := by
  let t' : CtranMapperRegCache :=
    ⟨avl, (t.segments.insert x.val s).erase x.val, regs, index, returned⟩
  have hst : t'.Stored (TreeElem.dropHdl x.hdl es) := by
    apply hcoh.stored.without hx havl
    intro v hv
    rw [AList.lookup_erase_ne hv, AList.lookup_insert_ne hv]
  refine ⟨hst.tree, hst.cached, hindex, ?_⟩
  intro regHdl e he
  rcases hregs regHdl e he with ⟨hold, hnot⟩
  have hok := hcoh.elems regHdl e hold
  refine ⟨?_, hok.registered, hok.bare⟩
  intro segment hmem
  rcases hok.live segment hmem with ⟨y, hy, rfl⟩
  refine ⟨y, ?_, rfl⟩
  simp only [TreeElem.dropHdl, List.mem_filter, decide_eq_true_eq]
  refine ⟨hy, ?_⟩
  intro heq
  rw [List.inj_on_of_nodup_map hcoh.tree.nodup hy hx heq] at hmem
  exact hnot hmem

theorem Coherent.freeSegment_ok {d : Deregs} {segHdl : ℕ} (halone : t.Alone (.freeSegment d segHdl)) :
    t.StepOk (.freeSegment d segHdl) := by
  left
  simp only [step, freeSegment, StepExact]
  rcases hcoh.stored.segmentPtr_cases segHdl with ⟨hptr, _⟩ | ⟨x, hx, rfl, hptr⟩
  · simp only [hptr, if_true]
    exact ⟨t, rfl, ⟨es, hcoh⟩, _, rfl, by simp, fun _ => rfl, fun _ => rfl⟩
  · rcases hcoh.cached x hx with ⟨hne, s, hs, hhdl, href⟩
    have hderef : t.derefSegment x.val = .ok s := by rw [derefSegment, hs]
    have hask : askFree s = .ok (decide (s.refCount - 1 = 0),
        { s with refCount := s.refCount - 1 }) := by
      rw [askFree]
      exact if_neg (by simp only; omega)
    simp only [hptr, hne, if_false, hderef, hask]
    by_cases hlast : s.refCount = 1
    · have hfreed : t.freedSegment x.hdl = some x.val := by
        simp only [freedSegment, hptr, hs, hlast, if_true]
      simp only [Alone, hfreed, LiesAlone] at halone
      rcases halone with ⟨hroot, hover⟩
      have hlone : ∀ regHdl e, t.regHdlToElemMap.lookup regHdl = some e → x.val ∈ e.segments_ →
          (∀ other ∈ e.segments_, other = x.val) ∧ d.Accepts e := by
        intro regHdl e he hmem
        apply hover ⟨regHdl, e⟩ (AList.mem_lookup_iff.mp he) _ hmem
        cases hdyn : e.isDynamic_ with
        | false => rfl
        | true =>
          rw [(hcoh.elems regHdl e he).bare hdyn] at hmem
          cases hmem
      rcases takeRegElems_spec
          (t := { t with segments := t.segments.insert x.val { s with refCount := s.refCount - 1 } })
          hcoh.index (fun regHdl e he hmem => (hlone regHdl e he hmem).1) with
        ⟨elems, regs, index, htake, hindex, hmem, hlook⟩
      rcases hcoh.tree.remove ((hcoh.tree.handles x.hdl).mpr ⟨x, hx, rfl⟩) hroot with
        ⟨avl, hremove, havl⟩
      have hready : ∀ y ∈ elems, y.2.state = .REGISTERED ∧ d.Accepts y.2 := by
        intro y hy
        rcases (hmem y.1 y.2).mp hy with ⟨he, hin⟩
        exact ⟨(hcoh.elems y.1 y.2 he).registered, (hlone y.1 y.2 he hin).2⟩
      rcases deregElems_spec d hready with ⟨elems', hdereg, hfst, hall⟩
      rw [if_neg (by simp [hlast])]
      simp only [htake]
      simp only [hhdl, hremove, hdereg]
      have hregs : ∀ regHdl e, regs.lookup regHdl = some e →
          t.regHdlToElemMap.lookup regHdl = some e ∧ x.val ∉ e.segments_ := by
        intro regHdl e he
        rw [hlook] at he
        by_cases htaken : regHdl ∈ elems.map Prod.fst
        · rw [if_pos htaken] at he
          cases he
        · rw [if_neg htaken] at he
          refine ⟨he, ?_⟩
          intro hin
          exact htaken (List.mem_map_of_mem ((hmem regHdl e).mpr ⟨he, hin⟩))
      refine ⟨_, rfl, ⟨_, hcoh.without hx havl hindex hregs⟩, _, rfl, ?_⟩
      refine ⟨?_, ?_, ?_⟩
      · intro _
        refine ⟨x.val, hptr, hne, ?_, hall⟩
        intro regHdl
        simp only [hfst, List.mem_map, Prod.exists, exists_and_right, exists_eq_right, hmem]
        constructor
        · rintro ⟨e, he, hin⟩
          exact hcoh.sound.pointers x.val regHdl ((hcoh.index x.val regHdl).mpr ⟨e, he, hin⟩)
        · rintro ⟨e, he, _, hin⟩
          exact ⟨e, he, hin⟩
      · intro hfree
        cases hfree
      · intro regHdl
        simp only [hfst]
        exact hlook regHdl
    · rw [if_pos (by simp only [decide_eq_false_iff_not]; omega)]
      have hset := hcoh.setRefCount (s.refCount - 1) hs (by omega)
      exact ⟨_, rfl, ⟨es, hset⟩, _, rfl, by simp, fun _ => rfl, fun _ => rfl⟩

theorem Coherent.step_ok {past : List Op} {op : Op} (hop : FreesAlone past t op) : t.StepOk op := by
  rcases hop with ⟨hwell, halone⟩
  cases op with
  | cacheSegment drv ptr len cudaDev ncclManaged newSeg newNode =>
    exact hcoh.cacheSegment_ok drv cudaDev ncclManaged hwell.1 hwell.2.1 hwell.2.2.2
  | regRange drv b order ptr len cudaDev newElem =>
    exact hcoh.regRange_ok drv b order ptr len cudaDev hwell
  | regDynamic drv b ptr len cudaDev newElem => exact hcoh.regDynamic_ok drv b ptr len cudaDev hwell
  | deregDynamic d regHdl =>
    apply hcoh.deregDynamic_ok d
    intro e he
    simp only [Alone, he, NotCached] at halone
    exact halone
  | freeSegment d segHdl => exact hcoh.freeSegment_ok halone
  | destroyRegElem regHdl =>
    left
    refine ⟨_, rfl, ⟨es, ?_⟩, Keeps.of_eq rfl⟩
    exact ⟨hcoh.tree, hcoh.cached, hcoh.index, hcoh.elems⟩

end Steps

/-! ### Runs -/

theorem run_coherent (ops : List Op) (hadm : Admissible step FreesAlone [] {} ops) :
    (∃ t, run step {} ops = .ok t ∧ ∃ es, t.Coherent es) ∨
      ∃ f, run step {} ops = .error f ∧ f = .abort := by
  apply run_invariant_or_stops (fun _ t => ∃ es, Coherent t es) (· = .abort) _ ops
    ⟨[], coherent_empty⟩ hadm
  rintro past t op ⟨es, hcoh⟩ hop
  rcases hcoh.step_ok hop with ⟨t', ht', hcoh', _⟩ | habort
  · exact Or.inl ⟨t', ht', hcoh'⟩
  · exact Or.inr ⟨.abort, habort, rfl⟩

/-- What a run has established before its last operation, and what that operation does. -/
def RunExact (ops : List Op) (op : Op) : Prop :=
  match run step {} ops with
  | .error f => f = .abort
  | .ok t => t.Sound ∧
      match t.step op with
      | .error f => f = .abort
      | .ok t' => t'.Sound ∧ t.StepExact t' op

/-- While every freed segment's elements lie over it alone, a free deregisters exactly the elements
registered over the segment, and the index holds live elements over their keys. -/
theorem runExact_of_freesAlone (ops : List Op) (op : Op)
    (hadm : Admissible step FreesAlone [] {} (ops ++ [op])) : RunExact ops op := by
  unfold RunExact
  rcases run_coherent ops hadm.take with ⟨t, hrun, es, hcoh⟩ | ⟨f, hrun, hf⟩
  · have hlast := hadm.drop hrun
    rw [hrun]
    refine ⟨hcoh.sound, ?_⟩
    rcases hcoh.step_ok hlast.1 with ⟨t', hstep, ⟨es', hcoh'⟩, hexact⟩ | habort
    · rw [hstep]
      exact ⟨hcoh'.sound, hexact⟩
    · rw [habort]
  · rw [hrun]
    exact hf

instance (t : CtranMapperRegCache) (d : Deregs) : ∀ segment, Decidable (t.LiesAlone d segment)
  | none => isTrue trivial
  | some _ => inferInstanceAs (Decidable (_ ∧ ∀ x ∈ t.regHdlToElemMap.entries, _))

instance : ∀ e, Decidable (NotCached e)
  | none => isTrue trivial
  | some e => inferInstanceAs (Decidable (e.isDynamic_ = true))

instance (t : CtranMapperRegCache) : ∀ op, Decidable (t.Alone op)
  | .cacheSegment .. => isTrue trivial
  | .regRange .. => isTrue trivial
  | .regDynamic .. => isTrue trivial
  | .destroyRegElem _ => isTrue trivial
  | .deregDynamic _ _ => inferInstanceAs (Decidable (NotCached _))
  | .freeSegment _ _ => inferInstanceAs (Decidable (LiesAlone _ _ _))

instance (past : List Op) (t : CtranMapperRegCache) : ∀ op, Decidable (WellFormed past t op)
  | .cacheSegment .. => inferInstanceAs (Decidable (_ ∧ _ ∧ _ ∧ _))
  | .regRange .. => inferInstanceAs (Decidable (Fresh _ _))
  | .regDynamic .. => inferInstanceAs (Decidable (Fresh _ _))
  | .destroyRegElem _ => isTrue trivial
  | .deregDynamic .. => isTrue trivial
  | .freeSegment .. => isTrue trivial

instance (past : List Op) (t : CtranMapperRegCache) (op : Op) : Decidable (FreesAlone past t op) :=
  inferInstanceAs (Decidable (_ ∧ _))

/-- Two adjoining allocations and one apart. -/
def adjoining : Driver where
  getDevMemType _ _ := .ok .kCumem
  cuMemGetAddressRange p :=
    if 16 ≤ p ∧ p < 20 then some (16, 4)
    else if 20 ≤ p ∧ p < 24 then some (20, 4)
    else if 64 ≤ p ∧ p < 68 then some (64, 4)
    else none
  holds := by
    intro p base range h
    split at h
    · cases h
      omega
    · split at h
      · cases h
        omega
      · split at h
        · cases h
          omega
        · cases h

def willing : Backends := ⟨false, true, .returned .commSuccess 7, .returned .commSuccess 8,
  .commSuccess, 0⟩

def accepting : Deregs := ⟨fun _ => .commSuccess, fun _ => .commSuccess, fun _ => .commSuccess⟩

/-- An element over one segment, one dynamic element, and a segment cached twice. -/
theorem runExact_of_freesAlone_shared :
    RunExact [.cacheSegment adjoining 16 4 0 false 100 101,
      .cacheSegment adjoining 20 4 0 false 200 201, .cacheSegment adjoining 16 4 0 false 300 301,
      .regRange adjoining willing [] 16 4 0 400, .regDynamic adjoining willing 16 8 0 500,
      .freeSegment accepting 101, .deregDynamic accepting 500] (.freeSegment accepting 101) :=
  runExact_of_freesAlone _ _ (by decide)

/-- An element over both adjoining segments is freed with the first, its address is reused for an
element over the third, and freeing the second segment deregisters that one. -/
def reusedAddress : List Op :=
  [.cacheSegment adjoining 16 4 0 false 100 101, .cacheSegment adjoining 20 4 0 false 200 201,
    .cacheSegment adjoining 64 4 0 false 300 301, .regRange adjoining willing [] 16 8 0 400,
    .freeSegment accepting 101, .destroyRegElem 400, .regRange adjoining willing [] 64 4 0 400]

theorem not_runExact_of_wellFormed :
    ¬ ∀ ops op, Admissible step WellFormed [] {} (ops ++ [op]) → RunExact ops op := by
  intro hall
  have hexact := hall reusedAddress (.freeSegment accepting 201) (by decide)
  have hstate : (run step {} reusedAddress).map (fun t => (t.segmentPtr 201,
      (t.regHdlToElemMap.lookup 400).map CtranMapperRegElem.segments_,
      (t.freeSegment accepting 201).map fun r => (r.1.freed, r.1.regElems.map Prod.fst))) =
      .ok (.ok 200, some [300], .ok (true, [400])) := by decide
  unfold RunExact at hexact
  cases hrun : run step {} reusedAddress with
  | error f =>
    rw [hrun] at hstate
    cases hstate
  | ok t =>
    rw [hrun] at hexact hstate
    simp only [Except.map, Except.ok.injEq, Prod.mk.injEq] at hstate
    rcases hstate with ⟨hptr, hsegs, hfree⟩
    have hlast := hexact.2
    simp only [step, StepExact] at hlast
    cases hcall : t.freeSegment accepting 201 with
    | error f =>
      rw [hcall] at hfree
      cases hfree
    | ok r =>
      rw [hcall] at hfree hlast
      simp only [Except.ok.injEq, Prod.mk.injEq] at hfree
      rcases hlast with ⟨_, out, hout, hfrees⟩
      rw [congrArg Prod.fst (Except.ok.inj hout)] at hfree
      rcases hfrees.freed hfree.1 with ⟨segment, hsegment, _, hover, _⟩
      rw [hptr, Except.ok.injEq] at hsegment
      rcases (hover 400).mp (by rw [hfree.2]; exact List.mem_singleton_self 400) with
        ⟨e, he, _, hmem⟩
      rw [he, Option.map_some, Option.some.injEq] at hsegs
      rw [hsegs, ← hsegment] at hmem
      cases List.mem_singleton.mp hmem

end CtranMapperRegCache
end TorchComms.Mapper
