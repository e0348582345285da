import TorchComms.Mapper.RegMem

/-! # The registration cache's tables agree

The tree holds the live segments, every live element is registered over live segments, and the index
lists an element under exactly the segments it is registered over.
-/
namespace TorchComms.Mapper

open Foundation AvlTree InvertedIndex

/-! ### Ranges, registration and deregistration -/

theorem pinRange_spec {drv : Driver} {ptr len : ℕ} {cudaDev : ℤ}
    {ranges : List CtranMapperSegmentRange} (h : pinRange drv ptr cudaDev len = .ok ranges) :
    ∃ first rest, ranges = first :: rest ∧
      (ptr + len < 2 ^ 64 → first.buf + first.len < 2 ^ 64) := by
  unfold pinRange at h
  split at h
  · cases h
  · rename_i memType _
    split at h
    · cases h
      exact ⟨⟨ptr, len, memType⟩, [], rfl, id⟩
    · split at h
      · cases h
      · rename_i base range hrange
        cases hrest : pinRanges drv ptr len len (base + range - ptr) with
        | error c =>
          rw [hrest] at h
          cases h
        | ok rest =>
          rw [hrest] at h
          cases h
          exact ⟨⟨base, range, memType⟩, rest, rfl, fun _ => (drv.holds ptr base range hrange).2.2⟩

theorem doRegister_spec (b : Backends) {e : CtranMapperRegElem} (hnvl : e.nvlRegElem = none)
    (hib : e.ibRegElem = none) : ∃ r, doRegister b e = .ok r ∧ ∀ e', r = .ok e' →
      e'.state = .REGISTERED ∧ e'.segments_ = e.segments_ ∧ e'.isDynamic_ = e.isDynamic_ ∧
        e'.buf = e.buf ∧ e'.len = e.len := by
  unfold doRegister
  simp only [hnvl, hib, ne_eq, not_true_eq_false, and_false, if_false]
  split
  · rename_i c _
    exact ⟨.error c, rfl, fun e' h => by cases h⟩
  · split
    · rename_i c _
      exact ⟨.error c, rfl, fun e' h => by cases h⟩
    · split
      · exact ⟨.error b.tcpRegMem.1, rfl, fun e' h => by cases h⟩
      · refine ⟨_, rfl, ?_⟩
        intro e' h
        cases h
        exact ⟨rfl, rfl, rfl, rfl, rfl⟩

theorem doDeregister_spec (d : Deregs) {e : CtranMapperRegElem} (he : e.state = .REGISTERED) :
    ∃ c e', doDeregister d e = .ok (c, e') ∧
      (d.Accepts e → c = .commSuccess ∧ e'.state = .DEREGISTERED) := by
  unfold doDeregister Deregs.Accepts
  simp only [he, ne_eq, not_true_eq_false, if_false]
  split
  · rename_i hc
    exact ⟨_, _, rfl, fun hacc => absurd hacc.1 hc⟩
  · split
    · rename_i hc
      exact ⟨_, _, rfl, fun hacc => absurd hacc.2.1 hc⟩
    · split
      · rename_i hc
        exact ⟨_, _, rfl, fun hacc => absurd hacc.2.2 hc⟩
      · exact ⟨_, _, rfl, fun _ => ⟨rfl, rfl⟩⟩

namespace CtranMapperRegCache

variable {elems : List (ℕ × CtranMapperRegElem)}

/-- Registered elements are deregistered without a fault, though a backend may refuse. -/
theorem deregElems_total (d : Deregs)
    (h : ∀ x ∈ elems, x.2.state = .REGISTERED) : ∃ r, deregElems d elems = .ok r := by
  induction elems with
  | nil => exact ⟨_, rfl⟩
  | cons x elems ih =>
    rcases ih fun y hy => h y (List.mem_cons_of_mem _ hy) with ⟨r, hr⟩
    rcases doDeregister_spec d (h x List.mem_cons_self) with ⟨c, e, he, _⟩
    simp only [deregElems, he, hr, Except.map]
    split
    · exact ⟨_, rfl⟩
    · exact ⟨_, rfl⟩

theorem deregElems_spec (d : Deregs) (h : ∀ x ∈ elems, x.2.state = .REGISTERED ∧ d.Accepts x.2) :
    ∃ elems', deregElems d elems = .ok (.commSuccess, elems') ∧
      elems'.map Prod.fst = elems.map Prod.fst ∧ ∀ x ∈ elems', x.2.state = .DEREGISTERED := by
  induction elems with
  | nil => exact ⟨[], rfl, rfl, by simp⟩
  | cons x elems ih =>
    rcases ih fun y hy => h y (List.mem_cons_of_mem _ hy) with ⟨elems', helems, hfst, hall⟩
    rcases h x List.mem_cons_self with ⟨hreg, hacc⟩
    rcases doDeregister_spec d hreg with ⟨c, e, he, hdone⟩
    rcases hdone hacc with ⟨rfl, hstate⟩
    refine ⟨(x.1, e) :: elems', ?_, ?_, ?_⟩
    · simp only [deregElems, he, helems, Except.map, ne_eq, not_true_eq_false, if_false]
    · rw [List.map_cons, List.map_cons, hfst]
    · intro y hy
      rcases List.mem_cons.mp hy with rfl | hy
      · exact hstate
      · exact hall y hy

/-! ### Elements and the segments under them -/

/-- The live non-dynamic element is registered over the segment. -/
def Over (t : CtranMapperRegCache) (regHdl segment : ℕ) : Prop :=
  ∃ e, t.regHdlToElemMap.lookup regHdl = some e ∧ e.isDynamic_ = false ∧ segment ∈ e.segments_

/-- Every pointer in the index is a live element over the key, every live element is registered,
and its segments are there. -/
structure Sound (t : CtranMapperRegCache) : Prop where
  pointers : ∀ segment regHdl, Filed t.segToRegElemsMap segment regHdl → t.Over regHdl segment
  registered : ∀ regHdl e, t.regHdlToElemMap.lookup regHdl = some e → e.state = .REGISTERED
  segments : ∀ regHdl e, t.regHdlToElemMap.lookup regHdl = some e →
    ∀ segment ∈ e.segments_, ∃ s, t.segments.lookup segment = some s

/-! ### The cached segments -/

/-- The tree stands for `es`, whose values are the live segments. -/
structure Stored (t : CtranMapperRegCache) (es : List Elem) : Prop where
  tree : t.segmentsAvl_.Represents es
  cached : ∀ x ∈ es, x.val ≠ 0 ∧
    ∃ s, t.segments.lookup x.val = some s ∧ s.avlHdl_ = x.hdl ∧ 1 ≤ s.refCount

/-- The segment under the node `x`, which contains the range. -/
def FoundBy (t : CtranMapperRegCache) (es : List Elem) (range : CtranMapperSegmentRange)
    (y : ℕ × CtranMapperSegment) : Prop :=
  ∃ x ∈ es, x.val = y.1 ∧ t.segments.lookup x.val = some y.2 ∧ x.Contains range.buf range.len

theorem FoundBy.live {t : CtranMapperRegCache} {es : List Elem}
    {ranges : List CtranMapperSegmentRange} {segs : List (ℕ × CtranMapperSegment)}
    (h : List.Forall₂ (t.FoundBy es) ranges segs) : ∀ y ∈ segs, ∃ x ∈ es, x.val = y.1 := by
  induction h with
  | nil => simp
  | cons hfound _ ih =>
    intro y hy
    rcases List.mem_cons.mp hy with rfl | hy
    · rcases hfound with ⟨x, hx, hval, _⟩
      exact ⟨x, hx, hval⟩
    · exact ih y hy

section Storage

variable {t : CtranMapperRegCache} {es : List Elem} (hst : t.Stored es)
include hst

variable {s : CtranMapperSegment} {x : Elem}

theorem Stored.segmentPtr_of_mem (hx : x ∈ es) : t.segmentPtr x.hdl = .ok x.val := by
  rw [segmentPtr, hst.tree.lookup hx]
  rfl

theorem Stored.segmentPtr_cases (segHdl : ℕ) :
    t.segmentPtr segHdl = .ok 0 ∧ segHdl ∉ t.segmentsAvl_.handles_ ∨
      ∃ x ∈ es, x.hdl = segHdl ∧ t.segmentPtr segHdl = .ok x.val := by
  by_cases hlive : segHdl ∈ t.segmentsAvl_.handles_
  · rcases (hst.tree.handles segHdl).mp hlive with ⟨x, hx, rfl⟩
    exact Or.inr ⟨x, hx, rfl, hst.segmentPtr_of_mem hx⟩
  · left
    refine ⟨?_, hlive⟩
    rw [segmentPtr, CtranAvlTree.lookup, if_pos hlive]
    rfl

theorem Stored.search {ptr len avlHdl : ℕ} (h : t.segmentsAvl_.search ptr len = some avlHdl) :
    ∃ x ∈ es, t.segmentPtr avlHdl = .ok x.val ∧ x.Contains ptr len ∧
      ∃ s, t.segments.lookup x.val = some s ∧
        t.derefSegment x.val = .ok s ∧ s.avlHdl_ = x.hdl ∧ 1 ≤ s.refCount := by
  rcases hst.tree.search_sound h with ⟨x, hx, rfl, hcontains⟩
  rcases (hst.cached x hx).2 with ⟨s, hs, hhdl, href⟩
  exact ⟨x, hx, hst.segmentPtr_of_mem hx, hcontains, s, hs, by rw [derefSegment, hs], hhdl, href⟩

theorem Stored.findSegments (ranges : List CtranMapperSegmentRange) :
    ∃ r, t.findSegments ranges = .ok r ∧ ∀ segs, r = some segs →
      List.Forall₂ (t.FoundBy es) ranges segs := by
  induction ranges with
  | nil =>
    refine ⟨some [], rfl, ?_⟩
    rintro segs ⟨⟩
    exact List.Forall₂.nil
  | cons range ranges ih =>
    rcases ih with ⟨r, hr, hall⟩
    rw [CtranMapperRegCache.findSegments]
    cases hsearch : t.segmentsAvl_.search range.buf range.len with
    | none => exact ⟨none, rfl, by rintro segs ⟨⟩⟩
    | some avlHdl =>
      rcases hst.search hsearch with ⟨x, hx, hptr, hcontains, s, hs, hderef, _⟩
      refine ⟨r.map ((x.val, s) :: ·), by simp only [hptr, hderef, hr, Except.map], ?_⟩
      intro segs hsegs
      cases r with
      | none => cases hsegs
      | some rest =>
        cases hsegs
        exact List.Forall₂.cons ⟨x, hx, rfl, hs, hcontains⟩ (hall rest rfl)

theorem Stored.setRefCount {segment : ℕ} (refCount : ℤ)
    (hs : t.segments.lookup segment = some s) (href : 1 ≤ refCount) :
    Stored { t with segments := t.segments.insert segment { s with refCount } } es where
  tree := hst.tree
  cached := by
    intro x hx
    rcases hst.cached x hx with ⟨hne, s', hs', hhdl, href'⟩
    refine ⟨hne, ?_⟩
    by_cases heq : x.val = segment
    · rw [heq, hs, Option.some.injEq] at hs'
      subst hs'
      exact ⟨{ s with refCount }, by rw [heq, AList.lookup_insert], hhdl, href⟩
    · exact ⟨s', by rw [AList.lookup_insert_ne heq, hs'], hhdl, href'⟩

theorem Stored.addSegment {newSeg newNode : ℕ} (hseg : t.Fresh newSeg) (hnode : t.Fresh newNode)
    (hw : s.range.buf + s.range.len < 2 ^ 64) (href : s.refCount = 1)
    {avlHdl : ℕ} {avl : CtranAvlTree}
    (hinsert : t.segmentsAvl_.insert ⟨newNode, s.range.buf, s.range.len, newSeg⟩ = (avlHdl, avl))
    (hhdl : s.avlHdl_ = avlHdl) :
    avlHdl = newNode ∧
      Stored { t with segmentsAvl_ := avl, segments := t.segments.insert newSeg s }
        (es ++ [⟨newNode, s.range.buf, s.range.len, newSeg⟩]) := by
  let new : Elem := ⟨newNode, s.range.buf, s.range.len, newSeg⟩
  have hins := hst.tree.insert (show new.hdl ∉ _ from hnode.2.1) (show new.NoWrap from hw)
  rw [hinsert] at hins
  refine ⟨hins.1, hins.2, ?_⟩
  intro x hx
  rcases List.mem_append.mp hx with hx | hx
  · rcases hst.cached x hx with ⟨hne, s', hs', hrest⟩
    have hapart : x.val ≠ newSeg := by
      intro heq
      rw [heq, hseg.2.2.1] at hs'
      cases hs'
    exact ⟨hne, s', by rw [AList.lookup_insert_ne hapart, hs'], hrest⟩
  · rw [List.mem_singleton.mp hx]
    exact ⟨hseg.1, s, AList.lookup_insert _, hhdl.trans hins.1, by omega⟩

theorem Stored.val_inj {x y : Elem} (hx : x ∈ es) (hy : y ∈ es) (h : x.val = y.val) : x = y := by
  rcases (hst.cached x hx).2 with ⟨sx, hsx, hxhdl, _⟩
  rcases (hst.cached y hy).2 with ⟨sy, hsy, hyhdl, _⟩
  rw [h, hsy, Option.some.injEq] at hsx
  rw [hsx, hxhdl] at hyhdl
  exact List.inj_on_of_nodup_map hst.tree.nodup hx hy hyhdl

theorem Stored.without (hx : x ∈ es) {t' : CtranMapperRegCache}
    (havl : t'.segmentsAvl_.Represents (TreeElem.dropHdl x.hdl es))
    (hsegs : ∀ v, v ≠ x.val → t'.segments.lookup v = t.segments.lookup v) :
    t'.Stored (TreeElem.dropHdl x.hdl es) where
  tree := havl
  cached := by
    intro y hy
    simp only [TreeElem.dropHdl, List.mem_filter, decide_eq_true_eq] at hy
    have hapart : y.val ≠ x.val := by
      intro heq
      exact hy.2 (congrArg Elem.hdl (hst.val_inj hy.1 hx heq))
    rw [hsegs y.val hapart]
    exact hst.cached y hy.1

end Storage

/-! ### The invariant -/

/-- A live element is registered over segments of `es`, a dynamic one over none. -/
structure ElemOk (es : List Elem) (e : CtranMapperRegElem) : Prop where
  live : ∀ segment ∈ e.segments_, ∃ x ∈ es, x.val = segment
  registered : e.state = .REGISTERED
  bare : e.isDynamic_ = true → e.segments_ = []

/-- The tree stands for `es`, whose values are the live segments; the index is exact. -/
structure Coherent (t : CtranMapperRegCache) (es : List Elem) : Prop where
  tree : t.segmentsAvl_.Represents es
  cached : ∀ x ∈ es, x.val ≠ 0 ∧
    ∃ s, t.segments.lookup x.val = some s ∧ s.avlHdl_ = x.hdl ∧ 1 ≤ s.refCount
  index : Exact CtranMapperRegElem.segments_ t.regHdlToElemMap t.segToRegElemsMap
  elems : ∀ regHdl e, t.regHdlToElemMap.lookup regHdl = some e → ElemOk es e

theorem coherent_empty : Coherent {} [] where
  tree := CtranAvlTree.represents_empty
  cached := by simp
  index := exact_empty
  elems := by
    intro regHdl e h
    cases h

section Tables

variable {t : CtranMapperRegCache} {es : List Elem} (hcoh : t.Coherent es)
include hcoh

theorem Coherent.stored : t.Stored es := ⟨hcoh.tree, hcoh.cached⟩

theorem Coherent.sound : t.Sound where
  pointers := by
    intro segment regHdl hfiled
    rcases (hcoh.index segment regHdl).mp hfiled with ⟨e, he, hmem⟩
    refine ⟨e, he, ?_, hmem⟩
    cases hdyn : e.isDynamic_ with
    | false => rfl
    | true =>
      rw [(hcoh.elems regHdl e he).bare hdyn] at hmem
      cases hmem
  registered := fun regHdl e he => (hcoh.elems regHdl e he).registered
  segments := by
    intro regHdl e he segment hmem
    rcases (hcoh.elems regHdl e he).live segment hmem with ⟨x, hx, rfl⟩
    rcases (hcoh.cached x hx).2 with ⟨s, hs, _⟩
    exact ⟨s, hs⟩

end Tables

theorem searchRegElem_spec {t t' : CtranMapperRegCache} {order : List ℕ} {ptr len regHdl : ℕ}
    (h : t.searchRegElem order ptr len = some (regHdl, t')) :
    ∃ e, t.regHdlToElemMap.lookup regHdl = some e ∧ t' = { t with
      regHdlToElemMap := t.regHdlToElemMap.insert regHdl { e with lookupHit_ := e.lookupHit_ + 1 } } := by
  induction order with
  | nil => cases h
  | cons hdl order ih =>
    rw [searchRegElem] at h
    cases hlook : t.regHdlToElemMap.lookup hdl with
    | none =>
      rw [hlook] at h
      exact ih h
    | some e =>
      rw [hlook] at h
      by_cases hhit : Hit ptr len e
      · simp only [if_pos hhit, Option.some.injEq, Prod.mk.injEq] at h
        rcases h with ⟨rfl, rfl⟩
        exact ⟨e, hlook, rfl⟩
      · simp only [if_neg hhit] at h
        exact ih h

/-! ### What each update keeps -/

section Updates

variable {t : CtranMapperRegCache} {es : List Elem} (hcoh : t.Coherent es)
include hcoh

variable {s : CtranMapperSegment}

theorem Coherent.setRefCount {segment : ℕ} (refCount : ℤ)
    (hs : t.segments.lookup segment = some s) (href : 1 ≤ refCount) :
    Coherent { t with segments := t.segments.insert segment { s with refCount } } es where
  __ := hcoh
  cached := (hcoh.stored.setRefCount refCount hs href).cached

theorem Coherent.addSegment {newSeg newNode : ℕ} (hseg : t.Fresh newSeg) (hnode : t.Fresh newNode)
    (hw : s.range.buf + s.range.len < 2 ^ 64) (href : s.refCount = 1)
    {avlHdl : ℕ} {avl : CtranAvlTree}
    (hinsert : t.segmentsAvl_.insert ⟨newNode, s.range.buf, s.range.len, newSeg⟩ = (avlHdl, avl))
    (hhdl : s.avlHdl_ = avlHdl) :
    Coherent { t with segmentsAvl_ := avl, segments := t.segments.insert newSeg s }
      (es ++ [⟨newNode, s.range.buf, s.range.len, newSeg⟩]) := by
  rcases hcoh.stored.addSegment hseg hnode hw href hinsert hhdl with ⟨_, hst⟩
  refine ⟨hst.tree, hst.cached, hcoh.index, ?_⟩
  intro regHdl e he
  have hok := hcoh.elems regHdl e he
  refine ⟨?_, hok.registered, hok.bare⟩
  intro segment hmem
  rcases hok.live segment hmem with ⟨x, hx, hval⟩
  exact ⟨x, List.mem_append_left _ hx, hval⟩

variable {e : CtranMapperRegElem} {regHdl : ℕ}

theorem Coherent.elems_insert (hok : ElemOk es e) :
    ∀ other e', (t.regHdlToElemMap.insert regHdl e).lookup other = some e' → ElemOk es e' := by
  intro other e' he'
  by_cases heq : other = regHdl
  · rw [heq, AList.lookup_insert, Option.some.injEq] at he'
    rw [← he']
    exact hok
  · rw [AList.lookup_insert_ne heq] at he'
    exact hcoh.elems other e' he'

theorem Coherent.hit {regHdl n : ℕ}
    (he : t.regHdlToElemMap.lookup regHdl = some e) : Coherent { t with
      regHdlToElemMap := t.regHdlToElemMap.insert regHdl { e with lookupHit_ := n } } es where
  __ := hcoh
  index := hcoh.index.update he rfl
  elems := by
    have hok := hcoh.elems regHdl e he
    exact hcoh.elems_insert ⟨hok.live, hok.registered, hok.bare⟩

theorem Coherent.addRegElem
    (hnew : t.regHdlToElemMap.lookup regHdl = none) (hok : ElemOk es e) :
    (t.addRegElem regHdl e).Coherent es where
  __ := hcoh
  index := hcoh.index.add hnew e
  elems := hcoh.elems_insert hok

theorem Coherent.addDynamic
    (hnew : t.regHdlToElemMap.lookup regHdl = none) (hok : ElemOk es e) (hbare : e.segments_ = []) :
    Coherent { t with regHdlToElemMap := t.regHdlToElemMap.insert regHdl e } es where
  __ := hcoh
  index := hcoh.index.add_bare hnew hbare
  elems := hcoh.elems_insert hok

theorem Coherent.eraseDynamic
    (he : t.regHdlToElemMap.lookup regHdl = some e) (hdyn : e.isDynamic_ = true) :
    Coherent { t with regHdlToElemMap := t.regHdlToElemMap.erase regHdl } es where
  __ := hcoh
  index := hcoh.index.erase_bare he ((hcoh.elems regHdl e he).bare hdyn)
  elems := by
    intro other e' he'
    by_cases heq : other = regHdl
    · rw [heq, AList.lookup_erase] at he'
      cases he'
    · rw [AList.lookup_erase_ne heq] at he'
      exact hcoh.elems other e' he'

end Updates

end CtranMapperRegCache
end TorchComms.Mapper
