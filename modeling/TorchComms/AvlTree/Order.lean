import TorchComms.AvlTree.Elem

/-! # Address order through insertion and removal

The in-order list is the abstract value of a tree. Insertion puts the new element at the one
place its address allows, removal takes out exactly the requested element, and both keep the
cached heights exact, on which the rotations rely.
-/
namespace TorchComms.AvlTree

/-- `x` ends at or before the start of `y`, and starts strictly before it. -/
def Elem.Before (x y : Elem) : Prop := x.addr < y.addr ∧ x.endAddr ≤ y.addr

/-- The containment test of the code: the query lies inside the element's range. -/
def Elem.Contains (e : Elem) (addr len : ℕ) : Prop :=
  e.addr ≤ addr ∧ AvlTree.endAddr addr len ≤ e.endAddr

/-- The range does not wrap: its end is its address plus its length. -/
def Elem.NoWrap (e : Elem) : Prop := e.addr + e.len < 2 ^ 64

theorem endAddr_of_lt {addr len : ℕ} (h : addr + len < 2 ^ 64) : endAddr addr len = addr + len :=
  Nat.mod_eq_of_lt h

theorem Elem.NoWrap.endAddr_eq {e : Elem} (h : e.NoWrap) : e.endAddr = e.addr + e.len :=
  Nat.mod_eq_of_lt h

theorem Elem.Before.trans {x y z : Elem} (hxy : x.Before y) (hyz : y.Before z) : x.Before z :=
  ⟨hxy.1.trans hyz.1, hxy.2.trans hyz.1.le⟩

namespace TreeElem

def Ordered (t : TreeElem) : Prop := t.inorder.Pairwise Elem.Before

variable {t : TreeElem} {e : Elem} {l r : TreeElem} {new : Elem} {h : ℕ}

theorem ordered_node :
    (node e h l r).Ordered ↔ l.Ordered ∧ r.Ordered ∧ (∀ x ∈ l.inorder, x.Before e) ∧
      (∀ y ∈ r.inorder, e.Before y) ∧ ∀ x ∈ l.inorder, ∀ y ∈ r.inorder, x.Before y := by
  simp only [Ordered, inorder_node, List.pairwise_append, List.pairwise_cons, List.mem_cons,
    forall_eq_or_imp]
  constructor
  · rintro ⟨hl, ⟨her, hr⟩, hx⟩
    exact ⟨hl, hr, fun x hxl => (hx x hxl).1, her, fun x hxl => (hx x hxl).2⟩
  · rintro ⟨hl, hr, hle, her, hlr⟩
    exact ⟨hl, ⟨her, hr⟩, fun x hxl => ⟨hle x hxl, hlr x hxl⟩⟩

/-! ### Insertion -/

theorem heightExact_insert (new : Elem) (ht : t.HeightExact) : (t.insert new).1.HeightExact := by
  induction t with
  | null => exact ⟨rfl, trivial, trivial⟩
  | node e h l r ihl ihr =>
    obtain ⟨hh, hl, hr⟩ := ht
    simp only [insert]
    split_ifs
    · exact ⟨hh, hl, hr⟩
    · simp only [updateHeight_of_exact (ihl hl)]
      exact heightExact_balance (heightExact_updateHeight e h (ihl hl) hr)
    · simp only [updateHeight_of_exact (ihr hr)]
      exact heightExact_balance (heightExact_updateHeight e h hl (ihr hr))
    · exact ⟨hh, hl, hr⟩

theorem inorder_insert_left (e new : Elem) (h : ℕ) (hl : l.HeightExact) (hr : r.HeightExact) :
    (balance (updateHeight (node e h (l.insert new).1.updateHeight r))).inorder =
      (l.insert new).1.inorder ++ e :: r.inorder := by
  rw [updateHeight_of_exact (heightExact_insert new hl), inorder_balance, inorder_updateHeight,
    inorder_node]
  exact heightExact_updateHeight e h (heightExact_insert new hl) hr

theorem inorder_insert_right (e new : Elem) (h : ℕ) (hl : l.HeightExact) (hr : r.HeightExact) :
    (balance (updateHeight (node e h l (r.insert new).1.updateHeight))).inorder =
      l.inorder ++ e :: (r.insert new).1.inorder := by
  rw [updateHeight_of_exact (heightExact_insert new hr), inorder_balance, inorder_updateHeight,
    inorder_node]
  exact heightExact_updateHeight e h hl (heightExact_insert new hr)

theorem inorder_insert_none (ht : t.HeightExact)
    (hnone : (t.insert new).2 = none) : (t.insert new).1.inorder = t.inorder := by
  induction t with
  | null => simp [insert] at hnone
  | node e h l r ihl ihr =>
    obtain ⟨_, hl, hr⟩ := ht
    simp only [insert] at hnone ⊢
    split_ifs at hnone ⊢
    · rfl
    · rw [inorder_insert_left e new h hl hr, ihl hl hnone, inorder_node]
    · rw [inorder_insert_right e new h hl hr, ihr hr hnone, inorder_node]
    · rfl

variable {addr len : ℕ} {hdl : Handle}

theorem not_overlaps (h : overlaps e addr len = false) :
    (e.addr ≥ addr → endAddr addr len ≤ e.addr) ∧ (e.addr ≤ addr → e.endAddr ≤ addr) := by
  simp only [overlaps, Bool.or_eq_false_iff, Bool.and_eq_false_iff, decide_eq_false_iff_not,
    not_le, not_lt, gt_iff_lt, ge_iff_le] at h
  constructor
  · intro hge
    rcases h.1 with h' | h'
    · exact absurd hge (by omega)
    · exact h'
  · intro hle
    rcases h.2 with h' | h'
    · exact absurd hle (by omega)
    · exact h'

/-- An accepted insertion splits the in-order list at the new element's place. Only the nodes on
the descent were compared with it; the order of the tree carries the result to all others. -/
theorem insert_some (ht : t.HeightExact) (ho : t.Ordered) (hsome : (t.insert new).2 = some hdl) :
    hdl = new.hdl ∧ ∃ pre suf, t.inorder = pre ++ suf ∧
      (t.insert new).1.inorder = pre ++ new :: suf ∧
      (∀ x ∈ pre, x.Before new) ∧ ∀ y ∈ suf, new.Before y := by
  induction t with
  | null =>
    simp only [insert, Option.some.injEq] at hsome
    exact ⟨hsome.symm, [], [], rfl, rfl, by simp, by simp⟩
  | node e h l r ihl ihr =>
    obtain ⟨_, hl, hr⟩ := ht
    obtain ⟨hol, hor, hle, her, _⟩ := ordered_node.mp ho
    simp only [insert] at hsome ⊢
    split_ifs at hsome ⊢ with hov hgt hlt
    · obtain ⟨rfl, pre, suf, hin, hout, hpre, hsuf⟩ := ihl hl hol hsome
      have hnew : new.Before e := ⟨hgt, (not_overlaps (by simpa using hov)).1 hgt.le⟩
      refine ⟨rfl, pre, suf ++ e :: r.inorder, ?_, ?_, hpre, ?_⟩
      · simp [hin]
      · rw [inorder_insert_left e new h hl hr, hout]
        simp
      · intro y hy
        simp only [List.mem_append, List.mem_cons] at hy
        rcases hy with hy | rfl | hy
        · exact hsuf y hy
        · exact hnew
        · exact hnew.trans (her y hy)
    · obtain ⟨rfl, pre, suf, hin, hout, hpre, hsuf⟩ := ihr hr hor hsome
      have hnew : e.Before new := ⟨hlt, (not_overlaps (by simpa using hov)).2 hlt.le⟩
      refine ⟨rfl, l.inorder ++ e :: pre, suf, ?_, ?_, ?_, hsuf⟩
      · simp [hin]
      · rw [inorder_insert_right e new h hl hr, hout]
        simp
      · intro x hx
        simp only [List.mem_append, List.mem_cons] at hx
        rcases hx with hx | rfl | hx
        · exact (hle x hx).trans hnew
        · exact hnew
        · exact hpre x hx

theorem ordered_insert (new : Elem) (ht : t.HeightExact) (ho : t.Ordered) :
    (t.insert new).1.Ordered := by
  cases hres : (t.insert new).2 with
  | none =>
    rw [Ordered, inorder_insert_none ht hres]
    exact ho
  | some hdl =>
    obtain ⟨_, pre, suf, hin, hout, hpre, hsuf⟩ := insert_some ht ho hres
    rw [Ordered, hin, List.pairwise_append] at ho
    rw [Ordered, hout, List.pairwise_append, List.pairwise_cons]
    refine ⟨ho.1, ⟨hsuf, ho.2.1⟩, ?_⟩
    intro x hx y hy
    rcases List.mem_cons.mp hy with rfl | hy
    · exact hpre x hx
    · exact ho.2.2 x hx y hy

/-! ### Removal -/

theorem removeRightmost_inorder (e : Elem) (h : ℕ) (l r : TreeElem) :
    (removeRightmost e h l r).2.inorder ++ [(removeRightmost e h l r).1] =
      l.inorder ++ e :: r.inorder := by
  induction r generalizing e h l with
  | null => simp [removeRightmost]
  | node e' h' l' r' _ ih => simp [removeRightmost, ih]

theorem removeLeftmost_inorder (e : Elem) (h : ℕ) (r l : TreeElem) :
    (removeLeftmost e h r l).1 :: (removeLeftmost e h r l).2.inorder =
      l.inorder ++ e :: r.inorder := by
  induction l generalizing e h r with
  | null => simp [removeLeftmost]
  | node e' h' l' r' ih _ =>
    have hrec := ih e' h' r'
    simp only [removeLeftmost, inorder_updateHeight, inorder_node]
    rw [← List.cons_append, hrec]

theorem removeRightmost_height (e : Elem) (h : ℕ) (hl : l.HeightExact)
    (hr : r.HeightExact) : (removeRightmost e h l r).2.HeightExact := by
  induction r generalizing e h l with
  | null => exact heightExact_onlyChild_left hl
  | node e' h' l' r' _ ih => exact heightExact_updateHeight e h hl (ih e' h' hr.2.1 hr.2.2)

theorem removeLeftmost_height (e : Elem) (h : ℕ) {r l : TreeElem} (hr : r.HeightExact)
    (hl : l.HeightExact) : (removeLeftmost e h r l).2.HeightExact := by
  induction l generalizing e h r with
  | null => exact heightExact_onlyChild_right hr
  | node e' h' l' r' ih _ => exact heightExact_updateHeight e h (ih e' h' hl.2.2 hl.2.1) hr

theorem inorder_removeSelf (e : Elem) (h : ℕ) (l r : TreeElem) :
    (removeSelf (node e h l r)).inorder = l.inorder ++ r.inorder := by
  rcases l with _ | ⟨el, hl, ll, lr⟩
  · simp [removeSelf]
  rcases r with _ | ⟨er, hr, rl, rr⟩
  · simp [removeSelf]
  simp only [removeSelf]
  split_ifs
  · cases lr with
    | null => simp
    | node e' h' l' r' =>
      have hwalk := removeRightmost_inorder el hl ll (node e' h' l' r')
      simp only [inorder_updateHeight, inorder_node] at hwalk ⊢
      rw [← hwalk]
      simp
  · cases rl with
    | null => simp
    | node e' h' l' r' =>
      have hwalk := removeLeftmost_inorder er hr rr (node e' h' l' r')
      simp only [inorder_updateHeight, inorder_node] at hwalk ⊢
      rw [hwalk]

theorem heightExact_removeSelf (ht : t.HeightExact) : t.removeSelf.HeightExact := by
  rcases t with _ | ⟨e, h, _ | ⟨el, hl, ll, lr⟩, r⟩
  · trivial
  · exact heightExact_onlyChild_right ht.2.2
  obtain ⟨_, hL, hR⟩ := ht
  rcases r with _ | ⟨er, hr, rl, rr⟩
  · exact heightExact_onlyChild_left hL
  simp only [removeSelf]
  split_ifs
  · cases lr with
    | null => exact heightExact_updateHeight el hl hL.2.1 hR
    | node e' h' l' r' =>
      exact heightExact_updateHeight _ _ (removeRightmost_height el hl hL.2.1 hL.2.2) hR
  · cases rl with
    | null => exact heightExact_updateHeight er hr hL hR.2.2
    | node e' h' l' r' =>
      exact heightExact_updateHeight _ _ hL (removeLeftmost_height er hr hR.2.2 hR.2.1)

theorem heightExact_removeBelow (e : Elem) (ht : t.HeightExact) :
    (t.removeBelow e).1.HeightExact := by
  induction t with
  | null => trivial
  | node d h l r ihl ihr =>
    obtain ⟨hh, hl, hr⟩ := ht
    simp only [removeBelow]
    split_ifs
    · exact heightExact_updateHeight d h (heightExact_removeSelf hl) hr
    · exact heightExact_updateHeight d h hl (heightExact_removeSelf hr)
    · exact heightExact_updateHeight d h hl (ihr hr)
    · exact ⟨hh, hl, hr⟩
    · exact heightExact_updateHeight d h (ihl hl) hr
    · exact ⟨hh, hl, hr⟩

theorem heightExact_remove (e : Elem) (ht : t.HeightExact) : (t.remove e).1.HeightExact := by
  unfold remove
  split_ifs
  · exact heightExact_removeSelf ht
  · exact heightExact_removeBelow e ht

/-- The element list without the node allocated at `hdl`. -/
def dropHdl (hdl : Handle) (es : List Elem) : List Elem := es.filter (fun x => x.hdl ≠ hdl)

theorem dropHdl_eq_self {es : List Elem} (h : ∀ x ∈ es, x.hdl ≠ hdl) : dropHdl hdl es = es := by
  simpa [dropHdl, List.filter_eq_self] using h

theorem dropHdl_append (hdl : Handle) (xs ys : List Elem) :
    dropHdl hdl (xs ++ ys) = dropHdl hdl xs ++ dropHdl hdl ys := List.filter_append ..

theorem removeBelow_absent (habs : ∀ x ∈ t.inorder, x.hdl ≠ e.hdl) :
    t.removeBelow e = (t, false) := by
  induction t with
  | null => rfl
  | node d h l r ihl ihr =>
    simp only [inorder_node, List.mem_append, List.mem_cons] at habs
    have hl : l.hdl? ≠ some e.hdl := by
      cases l with
      | null => simp [hdl?]
      | node el _ _ _ => simpa [hdl?] using habs el (by simp)
    have hr : r.hdl? ≠ some e.hdl := by
      cases r with
      | null => simp [hdl?]
      | node er _ _ _ => simpa [hdl?] using habs er (by simp)
    simp [removeBelow, hl, hr, ihl (fun x hx => habs x (.inl hx)),
      ihr (fun x hx => habs x (.inr (.inr hx)))]

theorem remove_absent (habs : ∀ x ∈ t.inorder, x.hdl ≠ e.hdl) : t.remove e = (t, false) := by
  unfold remove
  rw [if_neg, removeBelow_absent habs]
  cases t with
  | null => simp [hdl?]
  | node d h l r => simpa [hdl?] using habs d (by simp)

/-- Handles are pairwise different along the in-order list. -/
def HdlNodup (t : TreeElem) : Prop := (t.inorder.map Elem.hdl).Nodup

theorem hdlNodup_node {d : Elem} (hn : (node d h l r).HdlNodup) :
    l.HdlNodup ∧ r.HdlNodup ∧ (∀ x ∈ l.inorder, x.hdl ≠ d.hdl) ∧
      (∀ y ∈ r.inorder, y.hdl ≠ d.hdl) ∧ ∀ x ∈ l.inorder, ∀ y ∈ r.inorder, x.hdl ≠ y.hdl := by
  simp only [HdlNodup, inorder_node, List.map_append, List.map_cons, List.nodup_append,
    List.nodup_cons, List.mem_cons, List.mem_map, ne_eq] at hn
  obtain ⟨hl, ⟨hd, hr⟩, hx⟩ := hn
  exact ⟨hl, hr, fun x hxl he => hx _ ⟨x, hxl, rfl⟩ _ (.inl rfl) he,
    fun y hyr he => hd ⟨y, hyr, he⟩,
    fun x hxl y hyr he => hx _ ⟨x, hxl, rfl⟩ _ (.inr ⟨y, hyr, rfl⟩) he⟩

theorem inorder_removeSelf_of_hdl (hn : t.HdlNodup)
    (ht : t.hdl? = some e.hdl) : t.removeSelf.inorder = dropHdl e.hdl t.inorder := by
  cases t with
  | null => simp [hdl?] at ht
  | node d h l r =>
    obtain ⟨_, _, hl, hr, _⟩ := hdlNodup_node hn
    have hd : d.hdl = e.hdl := by simpa [hdl?] using ht
    have hcons : dropHdl d.hdl (d :: r.inorder) = dropHdl d.hdl r.inorder := by simp [dropHdl]
    rw [inorder_removeSelf, inorder_node, dropHdl_append, ← hd, hcons, dropHdl_eq_self hl,
      dropHdl_eq_self hr]

theorem mem_of_hdl? (ht : t.hdl? = some hdl) : ∃ x ∈ t.inorder, x.hdl = hdl := by
  cases t with
  | null => simp [hdl?] at ht
  | node d h l r => exact ⟨d, by simp, by simpa [hdl?] using ht⟩

theorem removeBelow_present (ho : t.Ordered) (hn : t.HdlNodup)
    (hmem : e ∈ t.inorder) (hroot : t.hdl? ≠ some e.hdl) :
    (t.removeBelow e).2 = true ∧ (t.removeBelow e).1.inorder = dropHdl e.hdl t.inorder := by
  induction t with
  | null => simp at hmem
  | node d h l r ihl ihr =>
    obtain ⟨hol, hor, hle, her, _⟩ := ordered_node.mp ho
    obtain ⟨hnl, hnr, hld, hrd, hlr⟩ := hdlNodup_node hn
    have hd : d.hdl ≠ e.hdl := by simpa [hdl?] using hroot
    have hde : d ≠ e := fun heq => hd (congrArg Elem.hdl heq)
    have hdrop (xs ys : List Elem) (hx : dropHdl e.hdl l.inorder = xs)
        (hy : dropHdl e.hdl r.inorder = ys) :
        dropHdl e.hdl (node d h l r).inorder = xs ++ d :: ys := by
      rw [inorder_node, dropHdl_append, hx, ← hy]
      simp [dropHdl, hd]
    have hside : e ∈ l.inorder ∨ e ∈ r.inorder := by
      simp only [inorder_node, List.mem_append, List.mem_cons] at hmem
      rcases hmem with hm | hm | hm
      · exact .inl hm
      · exact absurd hm.symm hde
      · exact .inr hm
    rcases hside with hel | her'
    · -- `e` is in the left subtree: the right one keeps all its elements
      have hkeep := dropHdl_eq_self (fun y hy => (hlr e hel y hy).symm)
      simp only [removeBelow]
      by_cases hlroot : l.hdl? = some e.hdl
      · rw [if_pos hlroot]
        refine ⟨rfl, ?_⟩
        rw [hdrop _ _ rfl hkeep, inorder_updateHeight, inorder_node,
          inorder_removeSelf_of_hdl hnl hlroot]
      · have hr : r.hdl? ≠ some e.hdl := by
          intro hr
          obtain ⟨y, hy, hye⟩ := mem_of_hdl? hr
          exact hlr e hel y hy hye.symm
        obtain ⟨hflag, hin⟩ := ihl hol hnl hel hlroot
        rw [if_neg hlroot, if_neg hr, if_neg (by have := (hle e hel).1; omega), if_pos hflag]
        refine ⟨rfl, ?_⟩
        rw [hdrop _ _ rfl hkeep, inorder_updateHeight, inorder_node, hin]
    · have hkeep := dropHdl_eq_self (fun x hx => hlr x hx e her')
      have hl : l.hdl? ≠ some e.hdl := by
        intro hl
        obtain ⟨x, hx, hxe⟩ := mem_of_hdl? hl
        exact hlr x hx e her' hxe
      simp only [removeBelow]
      rw [if_neg hl]
      by_cases hrroot : r.hdl? = some e.hdl
      · rw [if_pos hrroot]
        refine ⟨rfl, ?_⟩
        rw [hdrop _ _ hkeep rfl, inorder_updateHeight, inorder_node,
          inorder_removeSelf_of_hdl hnr hrroot]
      · obtain ⟨hflag, hin⟩ := ihr hor hnr her' hrroot
        rw [if_neg hrroot, if_pos (her e her').1, if_pos hflag]
        refine ⟨rfl, ?_⟩
        rw [hdrop _ _ hkeep rfl, inorder_updateHeight, inorder_node, hin]

theorem remove_present (ho : t.Ordered) (hn : t.HdlNodup) (hmem : e ∈ t.inorder) :
    (t.remove e).2 = true ∧ (t.remove e).1.inorder = dropHdl e.hdl t.inorder := by
  unfold remove
  split_ifs with hroot
  · exact ⟨rfl, inorder_removeSelf_of_hdl hn hroot⟩
  · exact removeBelow_present ho hn hmem hroot

/-! ### Search -/

theorem search_sound (h : t.search addr len = some e) : e ∈ t.inorder ∧ e.Contains addr len := by
  induction t with
  | null => simp [search] at h
  | node d _ l r ihl ihr =>
    simp only [search] at h
    split_ifs at h with hgt hlt
    · exact ⟨by simp [(ihl h).1], (ihl h).2⟩
    · exact ⟨by simp [(ihr h).1], (ihr h).2⟩
    · cases h
      exact ⟨by simp, by omega, by omega⟩

theorem search_complete (ho : t.Ordered)
    (hw : ∀ x ∈ t.inorder, x.NoWrap) (hmem : e ∈ t.inorder) (hc : e.Contains addr len) :
    (t.search addr len).isSome := by
  induction t with
  | null => simp at hmem
  | node d _ l r ihl ihr =>
    obtain ⟨hol, hor, hle, her, _⟩ := ordered_node.mp ho
    simp only [inorder_node, List.mem_append, List.mem_cons] at hmem hw
    simp only [search]
    obtain ⟨hstart, hstop⟩ := hc
    split_ifs with hgt hlt
    · rcases hmem with hm | rfl | hm
      · exact ihl hol (fun x hx => hw x (.inl hx)) hm
      · omega
      · have := (her e hm).1
        omega
    · rcases hmem with hm | rfl | hm
      · obtain ⟨hadd, hbefore⟩ := hle e hm
        have hd := (hw d (.inr (.inl rfl))).endAddr_eq
        omega
      · omega
      · exact ihr hor (fun x hx => hw x (.inr (.inr hx))) hm
    · rfl

end TreeElem
end TorchComms.AvlTree
