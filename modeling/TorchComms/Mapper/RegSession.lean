import TorchComms.Mapper.RegRange

/-! # Handles over a whole session

A session caches, registers and frees. While a handle's segments are cached its element lives and
covers what it was registered for, and a segment goes with the last of its releases. A freed
segment's elements are left in the lists of their other segments, so the name of a new element must
not be one of those.
-/
namespace TorchComms.Mapper

open Foundation AvlTree InvertedIndex

namespace CtranMapperRegCache

/-! ### The session -/

inductive Call where
  | cacheSegment (drv : Driver) (ptr len : ℕ) (cudaDev : ℤ) (ncclManaged : Bool)
      (newSeg newNode : ℕ)
  | regRange (drv : Driver) (b : Backends) (order : List ℕ) (ptr len : ℕ) (cudaDev : ℤ)
      (newElem : ℕ)
  | freeSegment (d : Deregs) (segHdl : ℕ)
  | destroyRegElem (regHdl : ℕ)

inductive Reply where
  | cached (r : Cached)
  | ranged (r : Ranged)
  | freed (r : Freed)
  | destroyed
deriving DecidableEq

def call (t : CtranMapperRegCache) : Call → Except Fault (Reply × CtranMapperRegCache)
  | .cacheSegment drv ptr len cudaDev ncclManaged newSeg newNode =>
    (t.cacheSegment drv ptr len cudaDev ncclManaged newSeg newNode).map
      fun r => (.cached r.1, r.2)
  | .regRange drv b order ptr len cudaDev newElem =>
    (t.regRange drv b order ptr len cudaDev newElem).map fun r => (.ranged r.1, r.2)
  | .freeSegment d segHdl => (t.freeSegment d segHdl).map fun r => (.freed r.1, r.2)
  | .destroyRegElem regHdl => .ok (.destroyed, t.destroyRegElem regHdl)

abbrev Log := List (Call × Reply)

/-- A `cacheSegment` returned the handle. -/
def returnedIn (segHdl : ℕ) : Call × Reply → Bool
  | (_, .cached r) => r.segHdl = segHdl
  | _ => false

/-- A `freeSegment` found the segment of the handle. -/
def releasedIn (segHdl : ℕ) : Call × Reply → Bool
  | (.freeSegment _ hdl, .freed r) => hdl = segHdl && r.ncclManaged.isSome
  | _ => false

def cachedTimes (log : Log) (segHdl : ℕ) : ℕ := log.countP (returnedIn segHdl)

def freedTimes (log : Log) (segHdl : ℕ) : ℕ := log.countP (releasedIn segHdl)

/-- The ranges that the driver reports, none when it fails. -/
def reported (drv : Driver) (ptr : ℕ) (cudaDev : ℤ) (len : ℕ) : List CtranMapperSegmentRange :=
  match pinRange drv ptr cudaDev len with
  | .ok ranges => ranges
  | .error _ => []

/-- What the allocator, the caller and the driver keep to. -/
def Promised (t : CtranMapperRegCache) : Call → Prop
  | .cacheSegment _ ptr len _ _ newSeg newNode =>
    t.Fresh newSeg ∧ t.Fresh newNode ∧ newSeg ≠ newNode ∧ ptr + len < 2 ^ 64
  | .regRange drv _ _ ptr len cudaDev newElem =>
    t.Fresh newElem ∧ ptr + len < 2 ^ 64 ∧ t.PageLike (reported drv ptr cudaDev len)
  | _ => True

/-- No list of the index has the address of the new element, and a segment is taken out of a tree
with a root. -/
def Unspoiled (t : CtranMapperRegCache) : Call → Prop
  | .regRange _ _ _ _ _ _ newElem => ∀ listed ∈ t.segToRegElemsMap.entries, newElem ∉ listed.2
  | .freeSegment _ segHdl => t.freedSegment segHdl ≠ none → t.segmentsAvl_.root_ ≠ .null
  | _ => True

/-! ### What the session promises -/

/-- The segment is in the tree. -/
def InCache (t : CtranMapperRegCache) (segment : ℕ) : Prop :=
  ∃ x ∈ t.segmentsAvl_.elems, x.val = segment

/-- The buffer is covered by the live element. -/
def CoveredBy (t : CtranMapperRegCache) (regHdl ptr len : ℕ) : Prop :=
  regHdl ≠ 0 ∧ ∃ e, t.regHdlToElemMap.lookup regHdl = some e ∧ e.buf ≤ ptr ∧
    ptr + len ≤ e.buf + e.len

structure Serves (t : CtranMapperRegCache) (log : Log) : Prop where
  /-- Each byte of a live element is in a cached segment. -/
  bytes : ∀ regHdl e, t.regHdlToElemMap.lookup regHdl = some e →
    ∀ a, e.buf ≤ a → a < e.buf + e.len →
      ∃ x ∈ t.segmentsAvl_.elems, x.addr ≤ a ∧ a < x.addr + x.len
  /-- A buffer that a live element covers is not registered again. -/
  again : ∀ regHdl ptr len, t.CoveredBy regHdl ptr len → ∀ drv b order cudaDev newElem,
    (∀ hdl, t.regHdlToElemMap.lookup hdl ≠ none → hdl ∈ order) →
      ∃ hdl t', t.regRange drv b order ptr len cudaDev newElem = .ok (⟨.commSuccess, false, hdl⟩, t') ∧
        t'.CoveredBy hdl ptr len
  /-- A segment is in the tree until it has been freed as often as cached. -/
  balance : ∀ segHdl, segHdl ≠ 0 → freedTimes log segHdl ≤ cachedTimes log segHdl ∧
    (segHdl ∈ t.segmentsAvl_.handles_ ↔ freedTimes log segHdl ≠ cachedTimes log segHdl)

/-- A handle that `regRange` sets covers the buffer. -/
def Answered (t' : CtranMapperRegCache) : Call → Reply → Prop
  | .regRange _ _ _ ptr len _ _, .ranged r => r.regHdl ≠ 0 → t'.CoveredBy r.regHdl ptr len
  | _, _ => True

/-- An element stays while its segments do. -/
def Stays (t t' : CtranMapperRegCache) : Prop :=
  ∀ regHdl e, t.regHdlToElemMap.lookup regHdl = some e →
    (∀ segment ∈ e.segments_, t'.InCache segment) →
      ∃ e', t'.regHdlToElemMap.lookup regHdl = some e' ∧ e'.buf = e.buf ∧ e'.len = e.len ∧
        e'.segments_ = e.segments_

/-! ### The invariant -/

/-- A live element over cached nodes. -/
structure RegOk (es : List Elem) (e : CtranMapperRegElem) : Prop where
  lies : ∃ xs, LiesOver es e xs
  noWrap : e.buf + e.len < 2 ^ 64
  registered : e.state = .REGISTERED
  cached : e.isDynamic_ = false

/-- The node is named, its segment has its range, and the count is that of the calls. -/
structure NodeOk (log : Log) (x : Elem) (s : CtranMapperSegment) : Prop where
  named : x.hdl ≠ 0
  span : s.range.span = nodeSpan x
  count : (cachedTimes log x.hdl : ℤ) = freedTimes log x.hdl + s.refCount

structure Held (t : CtranMapperRegCache) (es : List Elem) (log : Log) : Prop where
  stored : t.Stored es
  nodes : ∀ x ∈ es, ∀ s, t.segments.lookup x.val = some s → NodeOk log x s
  settled : ∀ segHdl, segHdl ≠ 0 → (∀ x ∈ es, x.hdl ≠ segHdl) →
    cachedTimes log segHdl = freedTimes log segHdl
  index : Sharp CtranMapperRegElem.segments_ t.regHdlToElemMap t.segToRegElemsMap
  elems : ∀ regHdl e, t.regHdlToElemMap.lookup regHdl = some e → regHdl ≠ 0 ∧ RegOk es e

/-- The two logs count the calls of the handle alike. -/
def SameTimes (log log' : Log) (segHdl : ℕ) : Prop :=
  cachedTimes log' segHdl = cachedTimes log segHdl ∧ freedTimes log' segHdl = freedTimes log segHdl

theorem NodeOk.relog {log log' : Log} {x : Elem} {s : CtranMapperSegment} (h : NodeOk log x s)
    (hsame : SameTimes log log' x.hdl) : NodeOk log' x s :=
  ⟨h.named, h.span, by rw [hsame.1, hsame.2, h.count]⟩

theorem cachedTimes_concat (log : Log) (p : Call × Reply) (segHdl : ℕ) :
    cachedTimes (log ++ [p]) segHdl =
      cachedTimes log segHdl + if returnedIn segHdl p then 1 else 0 := by
  rw [cachedTimes, List.countP_append, List.countP_singleton, ← cachedTimes]

theorem freedTimes_concat (log : Log) (p : Call × Reply) (segHdl : ℕ) :
    freedTimes (log ++ [p]) segHdl =
      freedTimes log segHdl + if releasedIn segHdl p then 1 else 0 := by
  rw [freedTimes, List.countP_append, List.countP_singleton, ← freedTimes]

theorem sameTimes_concat (log : Log) {p : Call × Reply} {segHdl : ℕ}
    (hret : returnedIn segHdl p = false) (hrel : releasedIn segHdl p = false) :
    SameTimes log (log ++ [p]) segHdl := by
  constructor
  · rw [cachedTimes_concat, hret]
    rfl
  · rw [freedTimes_concat, hrel]
    rfl

theorem held_empty : Held {} [] [] where
  stored := coherent_empty.stored
  nodes := by simp
  settled := fun _ _ _ => rfl
  index := sharp_empty
  elems := by
    intro regHdl e h
    cases h

section Updates

variable {t : CtranMapperRegCache} {es : List Elem} {log log' : Log} (hheld : t.Held es log)
include hheld

theorem Held.relog (hsame : ∀ segHdl, segHdl ≠ 0 → SameTimes log log' segHdl) : t.Held es log' where
  __ := hheld
  nodes := by
    intro x hx s hs
    have hnode := hheld.nodes x hx s hs
    exact hnode.relog (hsame x.hdl hnode.named)
  settled := by
    intro segHdl hne hnone
    rw [(hsame segHdl hne).1, (hsame segHdl hne).2, hheld.settled segHdl hne hnone]

variable {s : CtranMapperSegment} {e : CtranMapperRegElem} {x : Elem}

theorem Held.setRefCount (hx : x ∈ es) (refCount : ℤ)
    (hs : t.segments.lookup x.val = some s) (href : 1 ≤ refCount)
    (hcount : (cachedTimes log' x.hdl : ℤ) = freedTimes log' x.hdl + refCount)
    (hsame : ∀ segHdl, segHdl ≠ x.hdl → SameTimes log log' segHdl) :
    Held { t with segments := t.segments.insert x.val { s with refCount } } es log' where
  stored := hheld.stored.setRefCount refCount hs href
  nodes := by
    intro y hy s' hs'
    by_cases heq : y = x
    · subst heq
      rw [AList.lookup_insert, Option.some.injEq] at hs'
      subst hs'
      have hnode := hheld.nodes y hx s hs
      exact ⟨hnode.named, hnode.span, hcount⟩
    · have hval : y.val ≠ x.val := fun hval => heq (hheld.stored.val_inj hy hx hval)
      rw [AList.lookup_insert_ne hval] at hs'
      have hhdl : y.hdl ≠ x.hdl := fun hhdl =>
        heq (List.inj_on_of_nodup_map hheld.stored.tree.nodup hy hx hhdl)
      exact (hheld.nodes y hy s' hs').relog (hsame y.hdl hhdl)
  settled := by
    intro segHdl hne hnone
    have hapart := hsame segHdl fun heq => hnone x hx heq.symm
    rw [hapart.1, hapart.2, hheld.settled segHdl hne hnone]
  __ := hheld

theorem Held.addSegment (log' : Log) {newSeg newNode : ℕ} (hseg : t.Fresh newSeg) (hnode : t.Fresh newNode)
    (hw : s.range.buf + s.range.len < 2 ^ 64) (href : s.refCount = 1)
    {avlHdl : ℕ} {avl : CtranAvlTree}
    (hinsert : t.segmentsAvl_.insert ⟨newNode, s.range.buf, s.range.len, newSeg⟩ = (avlHdl, avl))
    (hhdl : s.avlHdl_ = avlHdl) (hcount : cachedTimes log' newNode = freedTimes log' newNode + 1)
    (hsame : ∀ segHdl, segHdl ≠ newNode → SameTimes log log' segHdl) :
    Held { t with segmentsAvl_ := avl, segments := t.segments.insert newSeg s }
      (es ++ [⟨newNode, s.range.buf, s.range.len, newSeg⟩]) log' where
  stored := (hheld.stored.addSegment hseg hnode hw href hinsert hhdl).2
  nodes := by
    intro x hx s' hs'
    rcases List.mem_append.mp hx with hold | hx
    · have hval : x.val ≠ newSeg := by
        intro hval
        rcases (hheld.stored.cached x hold).2 with ⟨s'', hs'', _⟩
        rw [hval, hseg.2.2.1] at hs''
        cases hs''
      have hne : x.hdl ≠ newNode := by
        rintro rfl
        exact hnode.2.1 ((hheld.stored.tree.handles x.hdl).mpr ⟨x, hold, rfl⟩)
      rw [AList.lookup_insert_ne hval] at hs'
      exact (hheld.nodes x hold s' hs').relog (hsame x.hdl hne)
    · rw [List.mem_singleton.mp hx] at hs' ⊢
      rw [AList.lookup_insert, Option.some.injEq] at hs'
      subst hs'
      refine ⟨hnode.1, rfl, ?_⟩
      simp only
      omega
  settled := by
    intro segHdl hne hnone
    have hapart := hsame segHdl fun heq =>
      hnone _ (List.mem_append_right _ (List.mem_singleton_self _)) heq.symm
    rw [hapart.1, hapart.2]
    exact hheld.settled segHdl hne fun x hx => hnone x (List.mem_append_left _ hx)
  index := hheld.index
  elems := by
    intro regHdl e he
    rcases hheld.elems regHdl e he with ⟨hne, hok⟩
    rcases hok.lies with ⟨xs, hover⟩
    exact ⟨hne, ⟨xs, hover.mono fun x _ hx => List.mem_append_left _ hx⟩, hok.noWrap,
      hok.registered, hok.cached⟩

theorem Held.hit {regHdl n : ℕ} (he : t.regHdlToElemMap.lookup regHdl = some e) : Held { t with
      regHdlToElemMap := t.regHdlToElemMap.insert regHdl { e with lookupHit_ := n } } es log where
  stored := ⟨hheld.stored.tree, hheld.stored.cached⟩
  __ := hheld
  index := hheld.index.update he rfl
  elems := by
    intro other e' he'
    by_cases heq : other = regHdl
    · subst heq
      rw [AList.lookup_insert, Option.some.injEq] at he'
      subst he'
      rcases hheld.elems other e he with ⟨hne, hok⟩
      rcases hok.lies with ⟨xs, hover⟩
      exact ⟨hne, ⟨xs, hover.live, hover.segments, hover.adjoin⟩, hok.noWrap, hok.registered,
        hok.cached⟩
    · rw [AList.lookup_insert_ne heq] at he'
      exact hheld.elems other e' he'

theorem Held.addRegElem {regHdl : ℕ} (hne : regHdl ≠ 0)
    (hstale : ∀ listed ∈ t.segToRegElemsMap.entries, regHdl ∉ listed.2) (hok : RegOk es e) :
    (t.addRegElem regHdl e).Held es log where
  stored := ⟨hheld.stored.tree, hheld.stored.cached⟩
  __ := hheld
  index := by
    apply hheld.index.add
    rintro segment ⟨regHdls, hlisted, hmem⟩
    exact hstale ⟨segment, regHdls⟩ (AList.mem_lookup_iff.mp hlisted) hmem
  elems := by
    intro other e' he'
    by_cases heq : other = regHdl
    · subst heq
      rw [CtranMapperRegCache.addRegElem, AList.lookup_insert, Option.some.injEq] at he'
      subst he'
      exact ⟨hne, hok⟩
    · rw [CtranMapperRegCache.addRegElem, AList.lookup_insert_ne heq] at he'
      exact hheld.elems other e' he'

/-- A segment is gone, and with it the elements over it. -/
theorem Held.without (hx : x ∈ es) {t' : CtranMapperRegCache}
    (havl : t'.segmentsAvl_.Represents (TreeElem.dropHdl x.hdl es))
    (hsegs : ∀ v, v ≠ x.val → t'.segments.lookup v = t.segments.lookup v)
    (hdrop : Dropped t.regHdlToElemMap t.segToRegElemsMap x.val t'.regHdlToElemMap
      t'.segToRegElemsMap) (hcount : cachedTimes log' x.hdl = freedTimes log' x.hdl)
    (hsame : ∀ segHdl, segHdl ≠ x.hdl → SameTimes log log' segHdl) :
    t'.Held (TreeElem.dropHdl x.hdl es) log' := by
  have hmem : ∀ y, y ∈ TreeElem.dropHdl x.hdl es ↔ y ∈ es ∧ y.hdl ≠ x.hdl := by
    simp [TreeElem.dropHdl]
  refine ⟨hheld.stored.without hx havl hsegs, ?_, ?_, hheld.index.dropped hdrop, ?_⟩
  · intro y hy s hs
    rcases (hmem y).mp hy with ⟨hy, hne⟩
    have hval : y.val ≠ x.val := fun hval =>
      hne (congrArg Elem.hdl (hheld.stored.val_inj hy hx hval))
    rw [hsegs y.val hval] at hs
    exact (hheld.nodes y hy s hs).relog (hsame y.hdl hne)
  · intro segHdl hne hnone
    by_cases heq : segHdl = x.hdl
    · rw [heq, hcount]
    · rw [(hsame segHdl heq).1, (hsame segHdl heq).2]
      apply hheld.settled segHdl hne
      rintro y hy rfl
      exact hnone y ((hmem y).mpr ⟨hy, heq⟩) rfl
  · intro regHdl e he
    rcases (hdrop.items regHdl e).mp he with ⟨hold, hnot⟩
    rcases hheld.elems regHdl e hold with ⟨hne, hok⟩
    rcases hok.lies with ⟨xs, hover⟩
    refine ⟨hne, ⟨xs, hover.mono ?_⟩, hok.noWrap, hok.registered, hok.cached⟩
    intro y hy hyes
    refine (hmem y).mpr ⟨hyes, ?_⟩
    intro heq
    have hyx : y = x := List.inj_on_of_nodup_map hheld.stored.tree.nodup hyes hx heq
    apply hnot
    rw [hheld.index regHdl e hold, hover.segments, ← hyx]
    exact List.mem_map_of_mem hy

end Updates

/-! ### The calls -/

/-- A call keeps the invariant and answers as promised, or it aborts. -/
def CallOk (t : CtranMapperRegCache) (log : Log) (c : Call) : Prop :=
  (∃ reply t', t.call c = .ok (reply, t') ∧ (∃ es, t'.Held es (log ++ [(c, reply)])) ∧
    t'.Answered c reply ∧ t.Stays t') ∨ t.call c = .error .abort

theorem Stays.of_eq {t t' : CtranMapperRegCache} (h : t'.regHdlToElemMap = t.regHdlToElemMap) :
    t.Stays t' := by
  intro regHdl e he _
  exact ⟨e, by rw [h, he], rfl, rfl, rfl⟩

theorem Stays.of_insert {t t' : CtranMapperRegCache} {regHdl : ℕ} {e : CtranMapperRegElem}
    (h : t'.regHdlToElemMap = t.regHdlToElemMap.insert regHdl e)
    (hsame : ∀ e', t.regHdlToElemMap.lookup regHdl = some e' →
      e.buf = e'.buf ∧ e.len = e'.len ∧ e.segments_ = e'.segments_) : t.Stays t' := by
  intro other e' he' _
  rw [h]
  by_cases heq : other = regHdl
  · subst heq
    exact ⟨e, AList.lookup_insert _, hsame e' he'⟩
  · exact ⟨e', by rw [AList.lookup_insert_ne heq, he'], rfl, rfl, rfl⟩

variable {ptr len regHdl : ℕ} {order : List ℕ}

theorem searchRegElem_hit {t t' : CtranMapperRegCache}
    (h : t.searchRegElem order ptr len = some (regHdl, t')) :
    ∃ e, t.regHdlToElemMap.lookup regHdl = some e ∧ Hit ptr len e ∧ t' = { t with
      regHdlToElemMap := t.regHdlToElemMap.insert regHdl { e with lookupHit_ := e.lookupHit_ + 1 } } := by
  induction order with
  | nil => cases h
  | cons hdl order ih =>
    rw [searchRegElem] at h
    cases hlook : t.regHdlToElemMap.lookup hdl with
    | none =>
      rw [hlook] at h
      exact ih h
    | some e =>
      rw [hlook] at h
      by_cases hhit : Hit ptr len e
      · simp only [if_pos hhit, Option.some.injEq, Prod.mk.injEq] at h
        rcases h with ⟨rfl, rfl⟩
        exact ⟨e, hlook, hhit, rfl⟩
      · simp only [if_neg hhit] at h
        exact ih h

theorem searchRegElem_isSome {t : CtranMapperRegCache}
    {e : CtranMapperRegElem} (he : t.regHdlToElemMap.lookup regHdl = some e) (hhit : Hit ptr len e)
    (hmem : regHdl ∈ order) : ∃ r, t.searchRegElem order ptr len = some r := by
  induction order with
  | nil => cases hmem
  | cons hdl order ih =>
    rw [searchRegElem]
    by_cases heq : regHdl = hdl
    · subst heq
      simp only [he, if_pos hhit]
      exact ⟨_, rfl⟩
    · have hrest := ih ((List.mem_cons.mp hmem).resolve_left heq)
      cases hlook : t.regHdlToElemMap.lookup hdl with
      | none => exact hrest
      | some e' =>
        by_cases hhit' : Hit ptr len e'
        · simp only [if_pos hhit']
          exact ⟨_, rfl⟩
        · simp only [if_neg hhit']
          exact hrest

section Calls

variable {t : CtranMapperRegCache} {es : List Elem} {log : Log} (hheld : t.Held es log)
include hheld

variable {e : CtranMapperRegElem} {cudaDev : ℤ}

theorem Held.hit_iff {regHdl ptr len : ℕ}
    (he : t.regHdlToElemMap.lookup regHdl = some e) (hw : ptr + len < 2 ^ 64) :
    Hit ptr len e ↔ e.buf ≤ ptr ∧ ptr + len ≤ e.buf + e.len := by
  rcases hheld.elems regHdl e he with ⟨_, hok⟩
  rw [Hit, endAddr, endAddr, Nat.mod_eq_of_lt hw, Nat.mod_eq_of_lt hok.noWrap,
    and_iff_right hok.cached]

theorem Held.cacheSegment_ok (drv : Driver) {ptr len newSeg newNode : ℕ} (cudaDev : ℤ)
    (ncclManaged : Bool) (hseg : t.Fresh newSeg) (hnode : t.Fresh newNode)
    (hw : ptr + len < 2 ^ 64) :
    t.CallOk log (.cacheSegment drv ptr len cudaDev ncclManaged newSeg newNode) := by
  simp only [CallOk, call, cacheSegment]
  cases hsearch : t.segmentsAvl_.search ptr len with
  | some avlHdl =>
    rcases hheld.stored.search hsearch with ⟨x, hx, hptr, _, s, hs, hderef, hhdl, href⟩
    left
    simp only [hptr, hderef]
    refine ⟨_, _, rfl, ⟨es, hheld.setRefCount hx _ hs (by omega) ?_ ?_⟩, trivial, Stays.of_eq rfl⟩
    · have hcount := (hheld.nodes x hx s hs).count
      simp only [cachedTimes_concat, freedTimes_concat, returnedIn, releasedIn, hhdl]
      simp
      omega
    · intro segHdl hne
      apply sameTimes_concat
      · simp only [returnedIn, hhdl]
        exact decide_eq_false hne.symm
      · rfl
  | none =>
    cases hpin : pinRange drv ptr cudaDev len with
    | error c =>
      left
      refine ⟨_, _, rfl, ⟨es, hheld.relog ?_⟩, trivial, Stays.of_eq rfl⟩
      intro segHdl hne
      exact sameTimes_concat log (decide_eq_false hne.symm) rfl
    | ok ranges =>
      rcases pinRange_spec hpin with ⟨range, rest, rfl, hnowrap⟩
      cases rest with
      | cons second rest => exact Or.inr rfl
      | nil =>
        left
        cases hins : t.segmentsAvl_.insert ⟨newNode, range.buf, range.len, newSeg⟩ with
        | mk avlHdl avl =>
          have hnew := (hheld.stored.addSegment hseg hnode
            (s := ⟨range, cudaDev, ncclManaged, 1, avlHdl⟩) (hnowrap hw) rfl hins rfl).1
          subst hnew
          have hfree : ∀ x ∈ es, x.hdl ≠ avlHdl := by
            rintro x hx rfl
            exact hnode.2.1 ((hheld.stored.tree.handles x.hdl).mpr ⟨x, hx, rfl⟩)
          have hadd := hheld.addSegment
            (log ++ [(.cacheSegment drv ptr len cudaDev ncclManaged newSeg avlHdl,
              .cached ⟨.commSuccess, newSeg, avlHdl⟩)])
            hseg hnode (s := ⟨range, cudaDev, ncclManaged, 1, avlHdl⟩) (hnowrap hw) rfl hins rfl
            (by
              rw [cachedTimes_concat, freedTimes_concat, hheld.settled avlHdl hnode.1 hfree]
              simp [returnedIn, releasedIn])
            (by
              intro segHdl hne
              exact sameTimes_concat log (decide_eq_false hne.symm) rfl)
          exact ⟨_, _, by simp only [hins]; rfl, ⟨_, hadd⟩, trivial, Stays.of_eq rfl⟩

theorem Held.quiet {p : Call × Reply} (hret : ∀ segHdl, returnedIn segHdl p = false)
    (hrel : ∀ segHdl, releasedIn segHdl p = false) : t.Held es (log ++ [p]) :=
  hheld.relog fun segHdl _ => sameTimes_concat log (hret segHdl) (hrel segHdl)

/-- A registration lies over the segments found, and covers the buffer. -/
theorem Held.regOk {drv : Driver} {ptr len : ℕ}
    {ranges : List CtranMapperSegmentRange} {segs : List (ℕ × CtranMapperSegment)}
    (hpin : pinRange drv ptr cudaDev len = .ok ranges) (hw : ptr + len < 2 ^ 64)
    (hpage : t.PageLike ranges) {first : ℕ × CtranMapperSegment}
    (hfound : List.Forall₂ (t.FoundBy es) ranges (first :: segs)) (hbuf : e.buf = first.2.range.buf)
    (hlen : e.len = ((first :: segs).map fun s => s.2.range.len).sum)
    (hsegs : e.segments_ = (first :: segs).map Prod.fst) (hreg : e.state = .REGISTERED)
    (hdyn : e.isDynamic_ = false) : RegOk es e ∧ e.buf ≤ ptr ∧ ptr + len ≤ e.buf + e.len := by
  rcases found_adjoin hheld.stored hpin hw hpage hfound
    (fun x hx s hs => (hheld.nodes x hx s hs).span) with
    ⟨xs, start, stop, hlive, hvals, hspans, hadjoin, hstart, hstop, hend⟩
  have hstart' : e.buf = start := by
    rw [← hspans, List.map_cons] at hadjoin
    exact hbuf.trans hadjoin.1
  have hstop' : e.buf + e.len = stop := by
    rw [hadjoin.stop_eq, hstart', hlen, ← hspans, List.map_map]
    rfl
  rw [← hstop'] at hstop hend
  rw [← hstart', ← hstop'] at hadjoin
  exact ⟨⟨⟨xs, hlive, hsegs.trans hvals, hadjoin⟩, hend, hreg, hdyn⟩, hstart' ▸ hstart, hstop⟩

theorem Held.searchRegElem_ok {t' : CtranMapperRegCache} {order : List ℕ} {ptr len regHdl : ℕ}
    (hw : ptr + len < 2 ^ 64) (h : t.searchRegElem order ptr len = some (regHdl, t')) :
    t'.Held es log ∧ t'.CoveredBy regHdl ptr len ∧ t.Stays t' := by
  rcases searchRegElem_hit h with ⟨e, he, hhit, rfl⟩
  rcases (hheld.hit_iff he hw).mp hhit with ⟨hbuf, hend⟩
  refine ⟨hheld.hit he, ⟨(hheld.elems regHdl e he).1, _, AList.lookup_insert _, hbuf, hend⟩,
    Stays.of_insert rfl ?_⟩
  intro e' he'
  rw [he, Option.some.injEq] at he'
  subst he'
  exact ⟨rfl, rfl, rfl⟩

theorem Held.regRange_ok (drv : Driver) (b : Backends) (order : List ℕ) {ptr len : ℕ}
    {newElem : ℕ} (hnew : t.Fresh newElem) (hw : ptr + len < 2 ^ 64)
    (hpage : t.PageLike (reported drv ptr cudaDev len))
    (hstale : ∀ listed ∈ t.segToRegElemsMap.entries, newElem ∉ listed.2) :
    t.CallOk log (.regRange drv b order ptr len cudaDev newElem) := by
  left
  simp only [call, regRange, regRangeLocked]
  cases hsearch : t.searchRegElem order ptr len with
  | some r =>
    rcases hheld.searchRegElem_ok hw hsearch with ⟨hheld', hcovered, hstays⟩
    exact ⟨_, _, rfl, ⟨es, hheld'.quiet (fun _ => rfl) fun _ => rfl⟩, fun _ => hcovered, hstays⟩
  | none =>
    have hsame := fun c => (⟨_, _, rfl, ⟨es, hheld.quiet (fun _ => rfl) fun _ => rfl⟩,
      fun hne => absurd rfl hne, Stays.of_eq rfl⟩ : ∃ reply t',
        (.ok (.ranged ⟨c, false, 0⟩, t) : Except Fault _) = .ok (reply, t') ∧
        (∃ es, t'.Held es (log ++ [(.regRange drv b order ptr len cudaDev newElem, reply)])) ∧
        t'.Answered (.regRange drv b order ptr len cudaDev newElem) reply ∧ t.Stays t')
    cases hpin : pinRange drv ptr cudaDev len with
    | error c => exact hsame c
    | ok ranges =>
      simp only [reported, hpin] at hpage
      rcases pinRange_spec hpin with ⟨range, rest, rfl, _⟩
      rcases hheld.stored.findSegments (range :: rest) with ⟨r, hr, hall⟩
      simp only [hr]
      cases r with
      | none => exact hsame .commSuccess
      | some segs =>
        have hfound := hall segs rfl
        cases segs with
        | nil => cases hfound
        | cons first segs =>
          simp only
          rcases doRegister_spec b (e := {
              buf := first.2.range.buf
              len := ((first :: segs).map fun s => s.2.range.len).sum
              cudaDev_ := cudaDev
              segments_ := (first :: segs).map Prod.fst
              type_ := first.2.range.type }) rfl rfl with ⟨res, hres, hspec⟩
          rw [hres]
          cases res with
          | error c => exact hsame c
          | ok e =>
            rcases hspec e rfl with ⟨hstate, hsegs, hdyn, hbuf, hlen⟩
            rcases hheld.regOk hpin hw hpage hfound hbuf hlen hsegs hstate hdyn with
              ⟨hok, hcover⟩
            have hadd := hheld.addRegElem hnew.1 hstale hok
            refine ⟨_, _, rfl, ⟨es, hadd.quiet (fun _ => rfl) fun _ => rfl⟩, ?_,
              Stays.of_insert rfl ?_⟩
            · intro hne
              exact ⟨hne, e, AList.lookup_insert _, hcover⟩
            · intro e' he'
              rw [hnew.2.2.2.1] at he'
              cases he'

theorem Held.freeSegment_ok {d : Deregs} {segHdl : ℕ}
    (hroot : t.freedSegment segHdl ≠ none → t.segmentsAvl_.root_ ≠ .null) :
    t.CallOk log (.freeSegment d segHdl) := by
  left
  simp only [call, freeSegment]
  rcases hheld.stored.segmentPtr_cases segHdl with ⟨hptr, _⟩ | ⟨x, hx, rfl, hptr⟩
  · simp only [hptr, if_true]
    refine ⟨_, _, rfl, ⟨es, hheld.quiet (fun _ => rfl) ?_⟩, trivial, Stays.of_eq rfl⟩
    intro hdl
    exact Bool.and_false _
  · rcases hheld.stored.cached x hx with ⟨hne, s, hs, hhdl, href⟩
    have hcount := (hheld.nodes x hx s hs).count
    have hderef : t.derefSegment x.val = .ok s := by rw [derefSegment, hs]
    have hask : askFree s = .ok (decide (s.refCount - 1 = 0),
        { s with refCount := s.refCount - 1 }) := by
      rw [askFree]
      exact if_neg (by simp only; omega)
    simp only [hptr, hne, if_false, hderef, hask]
    -- the call is counted for the handle it was made on, and for no other
    have hother : ∀ (out : Freed) segHdl, segHdl ≠ x.hdl →
        SameTimes log (log ++ [(.freeSegment d x.hdl, .freed out)]) segHdl := by
      intro out segHdl hne
      apply sameTimes_concat
      · rfl
      · simp only [releasedIn, decide_eq_false hne.symm, Bool.false_and]
    have hthis : ∀ out : Freed, out.ncclManaged = some s.ncclManaged →
        cachedTimes (log ++ [(.freeSegment d x.hdl, .freed out)]) x.hdl = cachedTimes log x.hdl ∧
        freedTimes (log ++ [(.freeSegment d x.hdl, .freed out)]) x.hdl =
          freedTimes log x.hdl + 1 := by
      intro out hout
      constructor
      · rw [cachedTimes_concat]
        rfl
      · rw [freedTimes_concat]
        simp only [releasedIn, hout, decide_true, Option.isSome_some, Bool.and_self, if_true]
    by_cases hlast : s.refCount = 1
    · have hfreed : t.freedSegment x.hdl = some x.val := by
        simp only [freedSegment, hptr, hs, hlast, if_true]
      have hroot := hroot (by rw [hfreed]; exact Option.some_ne_none _)
      rcases takeRegElems_dropped
          { t with segments := t.segments.insert x.val { s with refCount := s.refCount - 1 } } x.val with
        ⟨elems, regs, index, htake, hdrop, hmem⟩
      rcases hheld.stored.tree.remove ((hheld.stored.tree.handles x.hdl).mpr ⟨x, hx, rfl⟩) hroot with
        ⟨avl, hremove, havl⟩
      have hready : ∀ y ∈ elems, y.2.state = .REGISTERED := by
        intro y hy
        exact (hheld.elems y.1 y.2 ((hmem y.1 y.2).mp hy).1).2.registered
      rcases deregElems_total d hready with ⟨⟨c, elems'⟩, hdereg⟩
      rw [if_neg (by simp [hlast])]
      simp only [htake]
      simp only [hhdl, hremove, hdereg]
      rw [if_neg (show ¬ passes .commSuccess = false by decide)]
      have hstays : ∀ t' : CtranMapperRegCache, t'.segmentsAvl_ = avl →
          t'.regHdlToElemMap = regs → t.Stays t' := by
        intro t' havl' hregs regHdl e he hall
        refine ⟨e, ?_, rfl, rfl, rfl⟩
        rw [hregs]
        refine (hdrop.items regHdl e).mpr ⟨he, ?_⟩
        -- an element filed under the segment lies over it, and the segment is gone
        intro hfiled
        rcases hall x.val ((hheld.index regHdl e he x.val).mp hfiled) with ⟨y, hy, hval⟩
        rw [havl'] at hy
        have hyes := havl.mem_elems.mp hy
        simp only [TreeElem.dropHdl, List.mem_filter, decide_eq_true_eq] at hyes
        exact hyes.2 (congrArg Elem.hdl (hheld.stored.val_inj hyes.1 hx hval))
      have hsettled : ∀ out : Freed, out.ncclManaged = some s.ncclManaged →
          cachedTimes (log ++ [(.freeSegment d x.hdl, .freed out)]) x.hdl =
            freedTimes (log ++ [(.freeSegment d x.hdl, .freed out)]) x.hdl := by
        intro out hout
        rw [(hthis out hout).1, (hthis out hout).2]
        omega
      by_cases hc : c = .commSuccess
      · rw [if_neg (fun hne => hne hc)]
        refine ⟨_, _, rfl, ⟨_, hheld.without hx havl ?_ hdrop (hsettled _ rfl) (hother _)⟩, trivial,
          hstays _ rfl rfl⟩
        intro v hv
        rw [AList.lookup_erase_ne hv, AList.lookup_insert_ne hv]
      · rw [if_pos hc]
        refine ⟨_, _, rfl, ⟨_, hheld.without hx havl ?_ hdrop (hsettled _ rfl) (hother _)⟩, trivial,
          hstays _ rfl rfl⟩
        intro v hv
        exact AList.lookup_insert_ne hv
    · rw [if_pos (by simp only [decide_eq_false_iff_not]; omega)]
      refine ⟨_, _, rfl, ⟨es, hheld.setRefCount hx _ hs (by omega) ?_ (hother _)⟩, trivial,
        Stays.of_eq rfl⟩
      rw [(hthis _ rfl).1, (hthis _ rfl).2]
      push_cast
      omega

theorem Held.call_ok {c : Call} (hpromised : t.Promised c) (hunspoiled : t.Unspoiled c) :
    t.CallOk log c := by
  cases c with
  | cacheSegment drv ptr len cudaDev ncclManaged newSeg newNode =>
    exact hheld.cacheSegment_ok drv cudaDev ncclManaged hpromised.1 hpromised.2.1 hpromised.2.2.2
  | regRange drv b order ptr len cudaDev newElem =>
    exact hheld.regRange_ok drv b order hpromised.1 hpromised.2.1 hpromised.2.2 hunspoiled
  | freeSegment d segHdl => exact hheld.freeSegment_ok hunspoiled
  | destroyRegElem regHdl =>
    left
    have hkept : (t.destroyRegElem regHdl).Held es log :=
      ⟨⟨hheld.stored.tree, hheld.stored.cached⟩, hheld.nodes, hheld.settled, hheld.index,
        hheld.elems⟩
    exact ⟨_, _, rfl, ⟨es, hkept.quiet (fun _ => rfl) fun _ => rfl⟩, trivial, Stays.of_eq rfl⟩

theorem Held.serves : t.Serves log where
  bytes := by
    intro regHdl e he a hle hlt
    rcases (hheld.elems regHdl e he).2.lies with ⟨xs, hover⟩
    rcases hover.adjoin.exists_mem hle hlt with ⟨p, hp, hpa⟩
    rcases List.mem_map.mp hp with ⟨x, hx, rfl⟩
    exact ⟨x, hheld.stored.tree.mem_elems.mpr (hover.live x hx), hpa⟩
  again := by
    rintro regHdl ptr len ⟨hne, e, he, hbuf, hend⟩ drv b order cudaDev newElem horder
    have hw : ptr + len < 2 ^ 64 := Nat.lt_of_le_of_lt hend (hheld.elems regHdl e he).2.noWrap
    have hin : regHdl ∈ order := horder regHdl (by rw [he]; exact Option.some_ne_none e)
    rcases searchRegElem_isSome he ((hheld.hit_iff he hw).mpr ⟨hbuf, hend⟩) hin with ⟨r, hr⟩
    rcases hheld.searchRegElem_ok hw hr with ⟨_, hcovered, _⟩
    exact ⟨r.1, r.2, by simp only [regRange, hr], hcovered⟩
  balance := by
    intro segHdl hne
    rw [hheld.stored.tree.handles segHdl]
    by_cases hlive : ∃ x ∈ es, x.hdl = segHdl
    · rcases hlive with ⟨x, hx, rfl⟩
      rcases (hheld.stored.cached x hx).2 with ⟨s, hs, _, href⟩
      have hcount := (hheld.nodes x hx s hs).count
      exact ⟨by omega, fun _ => by omega, fun _ => ⟨x, hx, rfl⟩⟩
    · have hnone : ∀ x ∈ es, x.hdl ≠ segHdl := fun x hx heq => hlive ⟨x, hx, heq⟩
      have hsettled := hheld.settled segHdl hne hnone
      exact ⟨by omega, fun h => absurd h hlive, fun h => absurd hsettled.symm h⟩

end Calls

/-! ### Sessions -/

/-- A session whose calls are all promised and unspoiled. -/
def Clean (_ : List Call) (s : CtranMapperRegCache × Log) (c : Call) : Prop :=
  s.1.Promised c ∧ s.1.Unspoiled c

/-- The session serves before the last call and after it, the last call is answered, and the
elements stay. -/
def SessionServes (calls : List Call) (c : Call) : Prop :=
  match run (logged call) ({}, []) calls with
  | .error f => f = .abort
  | .ok s => s.1.Serves s.2 ∧
      match s.1.call c with
      | .error f => f = .abort
      | .ok (reply, t') => t'.Serves (s.2 ++ [(c, reply)]) ∧ t'.Answered c reply ∧ s.1.Stays t'

theorem logged_ok {s : CtranMapperRegCache × Log} {c : Call} (h : s.1.CallOk s.2 c) :
    (∃ s', logged call s c = .ok s' ∧ ∃ es, s'.1.Held es s'.2) ∨
      ∃ f, logged call s c = .error f ∧ f = .abort := by
  rcases h with ⟨reply, t', hcall, hheld, _⟩ | habort
  · exact Or.inl ⟨(t', s.2 ++ [(c, reply)]), by rw [logged, hcall]; rfl, hheld⟩
  · exact Or.inr ⟨.abort, by rw [logged, habort]; rfl, rfl⟩

theorem run_held (calls : List Call) (hadm : Admissible (logged call) Clean [] ({}, []) calls) :
    (∃ s, run (logged call) ({}, []) calls = .ok s ∧ ∃ es, s.1.Held es s.2) ∨
      ∃ f, run (logged call) ({}, []) calls = .error f ∧ f = .abort := by
  apply run_invariant_or_stops (fun _ s => ∃ es, s.1.Held es s.2) (· = .abort) _ calls
    ⟨[], held_empty⟩ hadm
  rintro past s c ⟨es, hheld⟩ hclean
  exact logged_ok (hheld.call_ok hclean.1 hclean.2)

/-- While no new element takes an address left in the index, and no segment is taken out of a tree
without a root, handles cover their buffers, stay with their segments and are found again, and the
segments go with the last of their releases. -/
theorem sessionServes_of_clean (calls : List Call) (c : Call)
    (hadm : Admissible (logged call) Clean [] ({}, []) (calls ++ [c])) : SessionServes calls c := by
  unfold SessionServes
  rcases run_held calls hadm.take with ⟨s, hrun, es, hheld⟩ | ⟨f, hrun, hf⟩
  · have hclean := (hadm.drop hrun).1
    rw [hrun]
    refine ⟨hheld.serves, ?_⟩
    rcases hheld.call_ok hclean.1 hclean.2 with
      ⟨reply, t', hcall, ⟨es', hheld'⟩, hanswered, hstays⟩ | habort
    · rw [hcall]
      exact ⟨hheld'.serves, hanswered, hstays⟩
    · rw [habort]
  · rw [hrun]
    exact hf

instance (t : CtranMapperRegCache) (ranges : List CtranMapperSegmentRange) :
    Decidable (t.PageLike ranges) :=
  decidable_of_iff
    ((ranges.map CtranMapperSegmentRange.span).Pairwise Apart ∧
      ∀ r ∈ ranges, r.type = .kCumem → ∀ x ∈ t.segmentsAvl_.elems,
        r.span = nodeSpan x ∨ Apart r.span (nodeSpan x))
    ⟨fun h => ⟨h.1, h.2⟩, fun h => ⟨h.disjoint, h.agrees⟩⟩

instance (t : CtranMapperRegCache) : ∀ c, Decidable (t.Promised c)
  | .cacheSegment .. => inferInstanceAs (Decidable (_ ∧ _ ∧ _ ∧ _))
  | .regRange .. => inferInstanceAs (Decidable (_ ∧ _ ∧ PageLike _ _))
  | .freeSegment .. => isTrue trivial
  | .destroyRegElem _ => isTrue trivial

instance (t : CtranMapperRegCache) : ∀ c, Decidable (t.Unspoiled c)
  | .cacheSegment .. => isTrue trivial
  | .regRange .. => inferInstanceAs (Decidable (∀ _ ∈ _, _))
  | .freeSegment .. => inferInstanceAs (Decidable (_ → _))
  | .destroyRegElem _ => isTrue trivial

instance (past : List Call) (s : CtranMapperRegCache × Log) (c : Call) : Decidable (Clean past s c) :=
  inferInstanceAs (Decidable (_ ∧ _))

/-- One element over two adjoining segments, found again for a part, and gone with the first. -/
theorem sessionServes_of_clean_adjoining :
    SessionServes [.cacheSegment adjoining 16 4 0 false 100 101,
      .cacheSegment adjoining 20 4 0 false 200 201, .cacheSegment adjoining 16 4 0 false 300 301,
      .regRange adjoining willing [] 17 6 0 400, .regRange adjoining willing [400] 18 4 0 500,
      .freeSegment accepting 101] (.freeSegment accepting 101) :=
  sessionServes_of_clean _ _ (by decide)

/-- An element over the first two segments goes with the first, and its address is used again for
one over the third. -/
def reusedName : List Call :=
  [.cacheSegment adjoining 16 4 0 false 100 101, .cacheSegment adjoining 20 4 0 false 200 201,
    .cacheSegment adjoining 64 4 0 false 300 301, .regRange adjoining willing [] 16 8 0 400,
    .freeSegment accepting 101, .destroyRegElem 400, .regRange adjoining willing [] 64 4 0 400]

theorem not_sessionServes_reusedName :
    ¬ ∀ calls c, Admissible (logged call) (fun _ s c => s.1.Promised c) [] ({}, []) (calls ++ [c]) →
      SessionServes calls c := by
  intro hall
  have hserves := hall reusedName (.freeSegment accepting 201) (by decide)
  have hstate : (run (logged call) ({}, []) reusedName).map (fun s =>
      ((s.1.regHdlToElemMap.lookup 400).map CtranMapperRegElem.segments_,
        (s.1.call (.freeSegment accepting 201)).map fun r =>
          ((r.2.regHdlToElemMap.lookup 400).isSome, r.2.segmentsAvl_.elems.map Elem.val))) =
      .ok (some [300], .ok (false, [300])) := by decide
  unfold SessionServes at hserves
  cases hrun : run (logged call) ({}, []) reusedName with
  | error f =>
    rw [hrun] at hstate
    cases hstate
  | ok s =>
    rw [hrun] at hserves hstate
    simp only [Except.map, Except.ok.injEq, Prod.mk.injEq] at hstate
    rcases hstate with ⟨hsegs, hcall⟩
    have hlast := hserves.2
    cases hfree : s.1.call (.freeSegment accepting 201) with
    | error f =>
      rw [hfree] at hcall
      cases hcall
    | ok r =>
      rw [hfree] at hcall hlast
      simp only [Except.ok.injEq, Prod.mk.injEq] at hcall
      rcases Option.map_eq_some_iff.mp hsegs with ⟨e, he, hover⟩
      have hstill : ∀ segment ∈ e.segments_, r.2.InCache segment := by
        intro segment hmem
        rw [hover, List.mem_singleton] at hmem
        subst hmem
        exact List.mem_map.mp (by rw [hcall.2]; exact List.mem_singleton_self 300)
      rcases hlast.2.2 400 e he hstill with ⟨e', he', _⟩
      rw [he'] at hcall
      cases hcall.1

end CtranMapperRegCache
end TorchComms.Mapper
