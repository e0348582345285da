import TorchComms.Foundation.Cutting
import TorchComms.Foundation.Run
import TorchComms.Mapper.FreeSegment

/-! # What a registration covers

An element of `regRange` lies over the cached segments that its ranges were found in. The driver
reports adjoining ranges, so the segments adjoin too, and the element reaches from the start of the
first to the end of the last.
-/
namespace TorchComms.Mapper

open Foundation AvlTree InvertedIndex

/-- Address and length. -/
def CtranMapperSegmentRange.span (r : CtranMapperSegmentRange) : ℕ × ℕ := (r.buf, r.len)

/-- Address and length of a node. -/
def nodeSpan (x : Elem) : ℕ × ℕ := (x.addr, x.len)

/-- The two ranges share no byte. -/
def Apart (p q : ℕ × ℕ) : Prop := p.1 + p.2 ≤ q.1 ∨ q.1 + q.2 ≤ p.1

instance (p q : ℕ × ℕ) : Decidable (Apart p q) := inferInstanceAs (Decidable (_ ∨ _))

/-! ### The ranges of a buffer -/

section Ranges

variable {drv : Driver} {ptr len : ℕ} {ranges : List CtranMapperSegmentRange} {fuel offset : ℕ}

theorem pinRanges_cons
    (h : pinRanges drv ptr len (fuel + 1) offset = .ok ranges) (hlt : offset < len) :
    ∃ base range rest, drv.cuMemGetAddressRange (ptr + offset) = some (base, range) ∧
      pinRanges drv ptr len fuel (base + range - ptr) = .ok rest ∧
      ranges = ⟨base, range, .kCumem⟩ :: rest := by
  rw [pinRanges, if_pos hlt] at h
  cases hrange : drv.cuMemGetAddressRange (ptr + offset) with
  | none =>
    rw [hrange] at h
    cases h
  | some r =>
    rw [hrange] at h
    cases hrest : pinRanges drv ptr len fuel (r.1 + r.2 - ptr) with
    | error c =>
      simp only [hrest, Except.map] at h
      cases h
    | ok rest =>
      simp only [hrest, Except.map, Except.ok.injEq] at h
      exact ⟨r.1, r.2, rest, rfl, hrest, h.symm⟩

/-- Behind a range that ends at the offset, disjoint ranges adjoin up to the end of the buffer. -/
theorem pinRanges_adjoin
    (h : pinRanges drv ptr len fuel offset = .ok ranges) (hfuel : len ≤ offset + fuel)
    (edge : ℕ × ℕ) (hedge : edge.1 + edge.2 = ptr + offset) (hpos : 1 ≤ edge.2)
    (hend : edge.1 + edge.2 < 2 ^ 64)
    (hapart : (edge :: ranges.map CtranMapperSegmentRange.span).Pairwise Apart) :
    ∃ stop, Adjoin (2 ^ 64) (ptr + offset) (ranges.map CtranMapperSegmentRange.span) stop ∧
      ptr + len ≤ stop ∧ stop < 2 ^ 64 := by
  induction fuel generalizing offset ranges edge with
  | zero =>
    cases h
    exact ⟨ptr + offset, rfl, by omega, by omega⟩
  | succ fuel ih =>
    by_cases hlt : offset < len
    · rcases pinRanges_cons h hlt with ⟨base, range, rest, hrange, hrest, rfl⟩
      have hholds := drv.holds (ptr + offset) base range hrange
      rw [List.map_cons, List.pairwise_cons] at hapart
      have hfirst := hapart.1 (base, range) List.mem_cons_self
      simp only [Apart] at hfirst
      -- the range holds the byte behind the one before and is apart from it
      have hbase : base = ptr + offset := by omega
      have hnext : base + range = ptr + (base + range - ptr) := by omega
      rcases ih hrest (by omega) (base, range) hnext (by simp only; omega) hholds.2.2 hapart.2 with
        ⟨stop, hadjoin, hstop⟩
      refine ⟨stop, ⟨hbase, ?_, ?_⟩, hstop⟩
      · simp only [CtranMapperSegmentRange.span]
        omega
      · rw [← hnext, hbase] at hadjoin
        exact hadjoin
    · rw [pinRanges, if_neg hlt] at h
      cases h
      exact ⟨ptr + offset, rfl, by omega, by omega⟩

variable {cudaDev : ℤ}

/-- Disjoint ranges adjoin from the start of the first, which is not behind the buffer's, to the
end of the last, which is not before the buffer's. -/
theorem pinRange_adjoin
    (h : pinRange drv ptr cudaDev len = .ok ranges) (hw : ptr + len < 2 ^ 64)
    (hapart : (ranges.map CtranMapperSegmentRange.span).Pairwise Apart) :
    ∃ start stop, Adjoin (2 ^ 64) start (ranges.map CtranMapperSegmentRange.span) stop ∧
      start ≤ ptr ∧ ptr + len ≤ stop ∧ stop < 2 ^ 64 := by
  unfold pinRange at h
  split at h
  · cases h
  · split at h
    · cases h
      exact ⟨ptr, ptr + len, ⟨rfl, by simp only [CtranMapperSegmentRange.span]; omega, rfl⟩,
        Nat.le_refl ptr, Nat.le_refl _, hw⟩
    · split at h
      · cases h
      · rename_i base range hrange
        have hholds := drv.holds ptr base range hrange
        cases hrest : pinRanges drv ptr len len (base + range - ptr) with
        | error c =>
          rw [hrest] at h
          cases h
        | ok rest =>
          rw [hrest] at h
          cases h
          have hnext : base + range = ptr + (base + range - ptr) := by omega
          rcases pinRanges_adjoin hrest (by omega) (base, range) hnext (by simp only; omega)
            hholds.2.2 hapart with ⟨stop, hadjoin, hstop⟩
          rw [← hnext] at hadjoin
          refine ⟨base, stop, ⟨rfl, ?_, hadjoin⟩, hholds.1, hstop⟩
          simp only [CtranMapperSegmentRange.span]
          omega

theorem pinRanges_cumem (h : pinRanges drv ptr len fuel offset = .ok ranges) :
    ∀ r ∈ ranges, r.type = .kCumem ∧ 1 ≤ r.len := by
  induction fuel generalizing offset ranges with
  | zero =>
    cases h
    simp
  | succ fuel ih =>
    by_cases hlt : offset < len
    · rcases pinRanges_cons h hlt with ⟨base, range, rest, hrange, hrest, rfl⟩
      have hholds := drv.holds (ptr + offset) base range hrange
      intro r hr
      rcases List.mem_cons.mp hr with rfl | hr
      · exact ⟨rfl, by simp only; omega⟩
      · exact ih hrest r hr
    · rw [pinRanges, if_neg hlt] at h
      cases h
      simp

theorem pinRange_type (h : pinRange drv ptr cudaDev len = .ok ranges) :
    (∃ type, ranges = [⟨ptr, len, type⟩]) ∨ ∀ r ∈ ranges, r.type = .kCumem ∧ 1 ≤ r.len := by
  unfold pinRange at h
  split at h
  · cases h
  · rename_i memType _
    split at h
    · cases h
      exact Or.inl ⟨memType, rfl⟩
    · rename_i htype
      rw [ne_eq, not_not] at htype
      split at h
      · cases h
      · rename_i base range hrange
        have hholds := drv.holds ptr base range hrange
        cases hrest : pinRanges drv ptr len len (base + range - ptr) with
        | error c =>
          rw [hrest] at h
          cases h
        | ok rest =>
          rw [hrest] at h
          cases h
          right
          intro r hr
          rcases List.mem_cons.mp hr with rfl | hr
          · exact ⟨htype, by simp only; omega⟩
          · exact pinRanges_cumem hrest r hr

end Ranges

namespace CtranMapperRegCache

/-! ### The segments that the ranges are found in -/

/-- What the driver reports is page-like: the ranges are disjoint, and memory is not remapped under
a cached segment, so a cuMem range is that of a cached segment or apart from it. -/
structure PageLike (t : CtranMapperRegCache) (ranges : List CtranMapperSegmentRange) : Prop where
  disjoint : (ranges.map CtranMapperSegmentRange.span).Pairwise Apart
  agrees : ∀ r ∈ ranges, r.type = .kCumem → ∀ x ∈ t.segmentsAvl_.elems,
    r.span = nodeSpan x ∨ Apart r.span (nodeSpan x)

/-- The element lies over the nodes `xs`, which adjoin. -/
structure LiesOver (es : List Elem) (e : CtranMapperRegElem) (xs : List Elem) : Prop where
  live : ∀ x ∈ xs, x ∈ es
  segments : e.segments_ = xs.map Elem.val
  adjoin : Adjoin (2 ^ 64) e.buf (xs.map nodeSpan) (e.buf + e.len)

theorem LiesOver.mono {es es' : List Elem} {e : CtranMapperRegElem} {xs : List Elem}
    (h : LiesOver es e xs) (hsub : ∀ x ∈ xs, x ∈ es → x ∈ es') : LiesOver es' e xs :=
  ⟨fun x hx => hsub x hx (h.live x hx), h.segments, h.adjoin⟩

/-- A node with the range of its segment's record. -/
def Recorded (t : CtranMapperRegCache) (es : List Elem) : Prop :=
  ∀ x ∈ es, ∀ s, t.segments.lookup x.val = some s → s.range.span = nodeSpan x

section Found

variable {t : CtranMapperRegCache} {es : List Elem} (hst : t.Stored es)
include hst

variable {segs : List (ℕ × CtranMapperSegment)}

/-- A cuMem range is found in the segment with just this range. -/
theorem found_span {ranges : List CtranMapperSegmentRange}
    (hfound : List.Forall₂ (t.FoundBy es) ranges segs) (hrec : t.Recorded es)
    (hagrees : ∀ r ∈ ranges, ∀ x ∈ es, r.span = nodeSpan x ∨ Apart r.span (nodeSpan x))
    (hfit : ∀ r ∈ ranges, 1 ≤ r.len ∧ r.buf + r.len < 2 ^ 64) :
    ∃ xs : List Elem, (∀ x ∈ xs, x ∈ es) ∧ segs.map Prod.fst = xs.map Elem.val ∧
      segs.map (fun y => y.2.range.span) = xs.map nodeSpan ∧
      xs.map nodeSpan = ranges.map CtranMapperSegmentRange.span := by
  induction hfound with
  | nil => exact ⟨[], by simp, rfl, rfl, rfl⟩
  | @cons range y ranges segs hone _ ih =>
    rcases ih (fun r hr => hagrees r (List.mem_cons_of_mem _ hr))
      (fun r hr => hfit r (List.mem_cons_of_mem _ hr)) with ⟨xs, hlive, hvals, hspans, hranges⟩
    rcases hone with ⟨x, hx, hval, hs, hcontains⟩
    have hfit := hfit range List.mem_cons_self
    have hcovers := (CtranAvlTree.contains_iff_covers (hst.tree.noWrap x hx) hfit.2).mp hcontains
    -- a range that contains a byte of the other is not apart from it
    have heq : range.span = nodeSpan x := by
      rcases hagrees range List.mem_cons_self x hx with heq | hapart
      · exact heq
      · simp only [Apart, CtranMapperSegmentRange.span, nodeSpan] at hapart
        simp only [CtranAvlTree.Covers] at hcovers
        omega
    refine ⟨x :: xs, ?_, ?_, ?_, ?_⟩
    · intro x' hx'
      rcases List.mem_cons.mp hx' with rfl | hx'
      · exact hx
      · exact hlive x' hx'
    · rw [List.map_cons, List.map_cons, hvals, hval]
    · rw [List.map_cons, List.map_cons, hspans, hrec x hx y.2 hs]
    · rw [List.map_cons, List.map_cons, hranges, heq]

/-- The segments found for a buffer adjoin and reach from its start to its end. -/
theorem found_adjoin {drv : Driver} {ptr len : ℕ} {cudaDev : ℤ}
    {ranges : List CtranMapperSegmentRange}
    (hpin : pinRange drv ptr cudaDev len = .ok ranges) (hw : ptr + len < 2 ^ 64)
    (hpage : t.PageLike ranges) (hfound : List.Forall₂ (t.FoundBy es) ranges segs)
    (hrec : t.Recorded es) :
    ∃ (xs : List Elem) (start stop : ℕ), (∀ x ∈ xs, x ∈ es) ∧ segs.map Prod.fst = xs.map Elem.val ∧
      segs.map (fun y => y.2.range.span) = xs.map nodeSpan ∧
      Adjoin (2 ^ 64) start (xs.map nodeSpan) stop ∧
      start ≤ ptr ∧ ptr + len ≤ stop ∧ stop < 2 ^ 64 := by
  rcases pinRange_type hpin with ⟨type, rfl⟩ | hcumem
  · -- one exact range, found in a segment that may be larger
    cases hfound with
    | cons hone hrest =>
      cases hrest
      rename_i y
      rcases hone with ⟨x, hx, hval, hs, hcontains⟩
      have hnowrap : x.addr + x.len < 2 ^ 64 := hst.tree.noWrap x hx
      have hcovers := (CtranAvlTree.contains_iff_covers (hst.tree.noWrap x hx) hw).mp hcontains
      refine ⟨[x], x.addr, x.addr + x.len, ?_, ?_, ?_, ?_, hcovers.1, hcovers.2, hnowrap⟩
      · intro x' hx'
        rw [List.mem_singleton.mp hx']
        exact hx
      · rw [List.map_singleton, List.map_singleton, hval]
      · rw [List.map_singleton, List.map_singleton, hrec x hx y.2 hs]
      · exact ⟨rfl, by simp only [nodeSpan]; omega, rfl⟩
  · rcases pinRange_adjoin hpin hw hpage.disjoint with ⟨start, stop, hadjoin, hstart, hstop⟩
    have hfit : ∀ r ∈ ranges, 1 ≤ r.len ∧ r.buf + r.len < 2 ^ 64 := by
      intro r hr
      refine ⟨(hcumem r hr).2, ?_⟩
      have hle := hadjoin.end_le r.span (List.mem_map_of_mem hr)
      simp only [CtranMapperSegmentRange.span] at hle
      omega
    rcases found_span hst hfound hrec
      (fun r hr x hx => hpage.agrees r hr (hcumem r hr).1 x (hst.tree.mem_elems.mpr hx)) hfit with
      ⟨xs, hlive, hvals, hspans, hranges⟩
    rw [← hranges] at hadjoin
    exact ⟨xs, start, stop, hlive, hvals, hspans, hadjoin, hstart, hstop⟩

end Found

end CtranMapperRegCache
end TorchComms.Mapper
