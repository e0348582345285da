import TorchComms.AvlTree.Order
import TorchComms.CommSpecs
import TorchComms.Foundation.Run

/-! # `CtranAvlTree`: the tree, its fallback list and its handle set

The abstract value of a tree is the list of live elements, computed from the operations
alone. Every run whose removals find a root represents it exactly; a removal that reaches a
null root calls a member function on a null pointer and is a fault of the model.
-/
namespace TorchComms.AvlTree

open Foundation
open scoped List

structure CtranAvlTree where
  root_ : TreeElem
  list_ : List Elem
  handles_ : Finset Handle
deriving DecidableEq

/-- Undefined behaviour a call can run into. -/
inductive Fault where
  | nullTreeElem
  | danglingHandle
deriving DecidableEq, Repr

namespace CtranAvlTree

def empty : CtranAvlTree := ⟨.null, [], ∅⟩

/-- The records reachable from the object, tree first. -/
def elems (t : CtranAvlTree) : List Elem := t.root_.inorder ++ t.list_

/-- Reading through a handle needs a record that still exists. -/
def deref (t : CtranAvlTree) (hdl : Handle) : Except Fault Elem :=
  match t.elems.find? (fun e => e.hdl = hdl) with
  | some e => .ok e
  | none => .error .danglingHandle

/-- `insert`, given the record its one `new TreeElem` makes. -/
def insert (t : CtranAvlTree) (new : Elem) : Handle × CtranAvlTree :=
  match t.root_ with
  | .null => (new.hdl, { t with
      root_ := .node new 1 .null .null, handles_ := Insert.insert new.hdl t.handles_ })
  | root =>
    match root.insert new with
    | (root', some hdl) =>
      (hdl, { t with root_ := root', handles_ := Insert.insert hdl t.handles_ })
    | (root', none) =>
      (new.hdl, { root_ := root', list_ := t.list_ ++ [new],
                  handles_ := Insert.insert new.hdl t.handles_ })

def remove (t : CtranAvlTree) (hdl : Handle) : Except Fault (CommResult × CtranAvlTree) :=
  if hdl ∉ t.handles_ then .ok (.commInvalidUsage, t)
  else if t.root_ = .null then .error .nullTreeElem
  else
    match t.deref hdl with
    | .error f => .error f
    | .ok e =>
      let (root', removed) := t.root_.remove e
      let list' := if removed then t.list_ else TreeElem.dropHdl hdl t.list_
      .ok (.commSuccess, ⟨root', list', t.handles_.erase hdl⟩)

/-- The scan of the fallback list. -/
def searchList (addr len : ℕ) (es : List Elem) : Option Elem :=
  es.find? (fun e => decide (e.addr ≤ addr) && decide (e.endAddr ≥ endAddr addr len))

def search (t : CtranAvlTree) (addr len : ℕ) : Option Handle :=
  match t.root_.search addr len with
  | some e => some e.hdl
  | none => (searchList addr len t.list_).map Elem.hdl

/-- `lookup`; 0 is the null pointer. -/
def lookup (t : CtranAvlTree) (hdl : Handle) : Except Fault ℕ :=
  if hdl ∉ t.handles_ then .ok 0 else (t.deref hdl).map Elem.val

def nodes : TreeElem → ℕ
  | .null => 0
  | .node _ _ l r => nodes l + nodes r + 1

/-- Push a child on the pending list unless it is null. -/
def enqueue : TreeElem → List TreeElem
  | .null => []
  | t => [t]

theorem nodes_enqueue (t : TreeElem) : ((enqueue t).map nodes).sum = nodes t := by
  cases t <;> simp [enqueue, nodes]

/-- The breadth first traversal of `getAllElems`. -/
def traverse : List TreeElem → List Handle
  | [] => []
  | .null :: q => traverse q
  | .node e _ l r :: q => e.hdl :: traverse (q ++ enqueue l ++ enqueue r)
termination_by q => 2 * (q.map nodes).sum + q.length
decreasing_by
  · simp [nodes]
  · have hl : (enqueue l).length ≤ 1 := by cases l <;> simp [enqueue]
    have hr : (enqueue r).length ≤ 1 := by cases r <;> simp [enqueue]
    simp only [List.map_append, List.sum_append, nodes_enqueue, List.length_append,
      List.map_cons, List.sum_cons, nodes, List.length_cons]
    omega

def getAllElems (t : CtranAvlTree) : List Handle :=
  traverse (enqueue t.root_) ++ t.list_.map Elem.hdl

/-! ### Operations and the live elements they leave -/

inductive Op where
  | insert (new : Elem)
  | remove (hdl : Handle)
deriving DecidableEq, Repr

def step (t : CtranAvlTree) : Op → Except Fault CtranAvlTree
  | .insert new => .ok (t.insert new).2
  | .remove hdl => (t.remove hdl).map Prod.snd

def liveStep (es : List Elem) : Op → List Elem
  | .insert new => es ++ [new]
  | .remove hdl => TreeElem.dropHdl hdl es

/-- The elements inserted and not removed since, in insertion order. -/
def live (ops : List Op) : List Elem := ops.foldl liveStep []

theorem live_concat (ops : List Op) (op : Op) : live (ops ++ [op]) = liveStep (live ops) op := by
  simp [live]

/-- What a caller and the allocator keep to: fresh records, no wrap-around, and only live
handles are removed. -/
def WellFormed (_ : List Op) (t : CtranAvlTree) : Op → Prop
  | .insert new => new.hdl ∉ t.handles_ ∧ new.NoWrap
  | .remove hdl => hdl ∈ t.handles_

/-- Moreover every removal finds a root. -/
def RootPresent (past : List Op) (t : CtranAvlTree) (op : Op) : Prop :=
  WellFormed past t op ∧ ∀ hdl, op = .remove hdl → t.root_ ≠ .null

/-- `t` holds the live elements `es`, whatever their ranges. -/
structure Holds (t : CtranAvlTree) (es : List Elem) : Prop where
  exact : t.root_.HeightExact
  ordered : t.root_.Ordered
  perm : t.elems.Perm es
  nodup : (es.map Elem.hdl).Nodup
  handles : ∀ hdl, hdl ∈ t.handles_ ↔ ∃ e ∈ es, e.hdl = hdl

/-- `t` stands for the live elements `es`. -/
structure Represents (t : CtranAvlTree) (es : List Elem) : Prop extends Holds t es where
  noWrap : ∀ e ∈ es, e.NoWrap

theorem holds_empty : Holds empty [] where
  exact := trivial
  ordered := List.Pairwise.nil
  perm := List.Perm.nil
  nodup := List.nodup_nil
  handles := by simp [empty]

theorem represents_empty : Represents empty [] := ⟨holds_empty, by simp⟩

/-- The null-root branch agrees with what `TreeElem::insert` does below a null child. -/
theorem insert_eq (t : CtranAvlTree) (new : Elem) :
    t.insert new = match t.root_.insert new with
      | (root', some hdl) =>
        (hdl, { t with root_ := root', handles_ := Insert.insert hdl t.handles_ })
      | (root', none) =>
        (new.hdl, { root_ := root', list_ := t.list_ ++ [new],
                    handles_ := Insert.insert new.hdl t.handles_ }) := by
  unfold insert
  cases t.root_ <;> rfl

section Holding

variable {t : CtranAvlTree} {es : List Elem} (hrep : Holds t es)
include hrep

theorem Holds.hdlNodup : (t.elems.map Elem.hdl).Nodup :=
  (hrep.perm.map Elem.hdl).nodup_iff.mpr hrep.nodup

variable {e : Elem}

theorem Holds.mem_elems : e ∈ t.elems ↔ e ∈ es := hrep.perm.mem_iff

theorem Holds.root_nodup : t.root_.HdlNodup := by
  have h := hrep.hdlNodup
  rw [elems, List.map_append] at h
  exact h.of_append_left

variable {new : Elem}

theorem Holds.fresh (hnew : new.hdl ∉ t.handles_) : ((es ++ [new]).map Elem.hdl).Nodup := by
  rw [List.map_append, List.nodup_append]
  refine ⟨hrep.nodup, by simp, ?_⟩
  simp only [List.mem_map, List.map_cons, List.map_nil, List.mem_singleton]
  rintro _ ⟨e, he, rfl⟩ _ rfl heq
  exact hnew ((hrep.handles _).mpr ⟨e, he, heq⟩)

theorem Holds.insert (hnew : new.hdl ∉ t.handles_) :
    (t.insert new).1 = new.hdl ∧ Holds (t.insert new).2 (es ++ [new]) := by
  have hhandles : ∀ hdl, hdl ∈ Insert.insert new.hdl t.handles_ ↔
      ∃ e ∈ es ++ [new], e.hdl = hdl := by
    intro hdl
    rw [Finset.mem_insert, hrep.handles]
    constructor
    · rintro (rfl | ⟨e, he, heq⟩)
      · exact ⟨new, by simp, rfl⟩
      · exact ⟨e, by simp [he], heq⟩
    · rintro ⟨e, he, rfl⟩
      rcases List.mem_append.mp he with he | he
      · exact .inr ⟨e, he, rfl⟩
      · exact .inl (by rw [List.mem_singleton.mp he])
  have hexact := TreeElem.heightExact_insert new hrep.exact
  have hordered := TreeElem.ordered_insert new hrep.exact hrep.ordered
  rw [insert_eq]
  cases hres : t.root_.insert new with
  | mk root' res =>
    rw [hres] at hexact hordered
    cases res with
    | none =>
      have hin := TreeElem.inorder_insert_none hrep.exact (by rw [hres])
      rw [hres] at hin
      refine ⟨rfl, hexact, hordered, ?_, hrep.fresh hnew, hhandles⟩
      simp only [elems] at hin ⊢
      rw [hin, ← List.append_assoc]
      exact hrep.perm.append_right [new]
    | some hdl =>
      obtain ⟨rfl, pre, suf, hold, hout, _⟩ :=
        TreeElem.insert_some hrep.exact hrep.ordered (by rw [hres])
      rw [hres] at hout
      refine ⟨rfl, hexact, hordered, ?_, hrep.fresh hnew, hhandles⟩
      have hperm := hrep.perm
      simp only [elems, hold] at hout hperm ⊢
      rw [hout]
      calc (pre ++ new :: suf) ++ t.list_
          _ = pre ++ new :: (suf ++ t.list_) := by simp
          _ ~ new :: (pre ++ (suf ++ t.list_)) := List.perm_middle
          _ ~ new :: es := by simpa using hperm
          _ ~ es ++ [new] := (List.perm_append_singleton new es).symm

theorem Holds.deref (he : e ∈ es) : t.deref e.hdl = .ok e := by
  have hsome : (t.elems.find? (fun x => x.hdl = e.hdl)).isSome := by
    rw [List.find?_isSome]
    exact ⟨e, hrep.mem_elems.mpr he, by simp⟩
  obtain ⟨x, hx⟩ := Option.isSome_iff_exists.mp hsome
  have hmem := hrep.mem_elems.mp (List.mem_of_find?_eq_some hx)
  have hhdl : x.hdl = e.hdl := by simpa using List.find?_some hx
  have hxe : x = e := List.inj_on_of_nodup_map hrep.nodup hmem he hhdl
  simp [CtranAvlTree.deref, hx, hxe]

theorem Holds.remove {hdl : Handle} (hlive : hdl ∈ t.handles_) (hroot : t.root_ ≠ .null) :
    ∃ t', t.remove hdl = .ok (.commSuccess, t') ∧ Holds t' (TreeElem.dropHdl hdl es) := by
  obtain ⟨e, he, rfl⟩ := (hrep.handles hdl).mp hlive
  have hderef := hrep.deref he
  have hhandles : ∀ hdl, hdl ∈ t.handles_.erase e.hdl ↔
      ∃ x ∈ TreeElem.dropHdl e.hdl es, x.hdl = hdl := by
    intro hdl
    rw [Finset.mem_erase, hrep.handles]
    constructor
    · rintro ⟨hne, x, hx, rfl⟩
      exact ⟨x, by simp [TreeElem.dropHdl, hx, hne], rfl⟩
    · rintro ⟨x, hx, rfl⟩
      simp only [TreeElem.dropHdl, List.mem_filter, decide_eq_true_eq] at hx
      exact ⟨hx.2, x, hx.1, rfl⟩
  have hnodup : ((TreeElem.dropHdl e.hdl es).map Elem.hdl).Nodup :=
    hrep.nodup.sublist (List.filter_sublist.map Elem.hdl)
  have hdrop : (TreeElem.dropHdl e.hdl t.elems).Perm (TreeElem.dropHdl e.hdl es) :=
    hrep.perm.filter _
  rw [elems, TreeElem.dropHdl_append] at hdrop
  have hexact := TreeElem.heightExact_remove e hrep.exact
  simp only [CtranAvlTree.remove, hlive, not_true_eq_false, if_false, hroot, hderef]
  refine ⟨_, rfl, ?_⟩
  have hmem : e ∈ t.root_.inorder ∨ e ∈ t.list_ := by
    simpa [elems] using hrep.mem_elems.mpr he
  have hapart := hrep.hdlNodup
  rw [elems, List.map_append, List.nodup_append] at hapart
  rcases hmem with hm | hm
  · obtain ⟨hflag, hin⟩ := TreeElem.remove_present hrep.ordered hrep.root_nodup hm
    have hlist : TreeElem.dropHdl e.hdl t.list_ = t.list_ :=
      TreeElem.dropHdl_eq_self fun x hx heq =>
        hapart.2.2 _ (List.mem_map_of_mem hm) _ (List.mem_map_of_mem hx) heq.symm
    refine ⟨hexact, ?_, ?_, hnodup, hhandles⟩
    · change (t.root_.remove e).1.inorder.Pairwise Elem.Before
      rw [hin]
      exact hrep.ordered.filter _
    · simp only [elems, hin, hflag, if_true]
      rw [hlist] at hdrop
      exact hdrop
  · have habs : ∀ x ∈ t.root_.inorder, x.hdl ≠ e.hdl := fun x hx =>
      hapart.2.2 _ (List.mem_map_of_mem hx) _ (List.mem_map_of_mem hm)
    rw [TreeElem.remove_absent habs] at hexact ⊢
    refine ⟨hexact, hrep.ordered, ?_, hnodup, hhandles⟩
    rw [TreeElem.dropHdl_eq_self habs] at hdrop
    exact hdrop

theorem Holds.lookup (he : e ∈ es) : t.lookup e.hdl = .ok e.val := by
  have hlive := (hrep.handles e.hdl).mpr ⟨e, he, rfl⟩
  simp [CtranAvlTree.lookup, hlive, hrep.deref he, Except.map]

end Holding

section Represented

variable {t : CtranAvlTree} {es : List Elem} (hrep : Represents t es)
include hrep

theorem Represents.insert {new : Elem} (hnew : new.hdl ∉ t.handles_) (hw : new.NoWrap) :
    (t.insert new).1 = new.hdl ∧ Represents (t.insert new).2 (es ++ [new]) := by
  obtain ⟨hhdl, hholds⟩ := hrep.toHolds.insert hnew
  refine ⟨hhdl, hholds, ?_⟩
  intro e he
  rcases List.mem_append.mp he with he | he
  · exact hrep.noWrap e he
  · rw [List.mem_singleton.mp he]
    exact hw

variable {hdl : Handle} {addr len : ℕ}

theorem Represents.remove (hlive : hdl ∈ t.handles_) (hroot : t.root_ ≠ .null) :
    ∃ t', t.remove hdl = .ok (.commSuccess, t') ∧ Represents t' (TreeElem.dropHdl hdl es) := by
  obtain ⟨t', hok, hholds⟩ := hrep.toHolds.remove hlive hroot
  exact ⟨t', hok, hholds, fun x hx => hrep.noWrap x (List.mem_of_mem_filter hx)⟩

theorem Represents.search_sound (h : t.search addr len = some hdl) :
    ∃ e ∈ es, e.hdl = hdl ∧ e.Contains addr len := by
  unfold CtranAvlTree.search at h
  split at h
  · rename_i e hs
    obtain ⟨hmem, hc⟩ := TreeElem.search_sound hs
    exact ⟨e, hrep.mem_elems.mp (List.mem_append_left _ hmem), by simpa using h, hc⟩
  · obtain ⟨e, hfind, rfl⟩ := Option.map_eq_some_iff.mp h
    have hc := List.find?_some hfind
    simp only [Bool.and_eq_true, decide_eq_true_eq] at hc
    have hmem := List.mem_of_find?_eq_some hfind
    exact ⟨e, hrep.mem_elems.mp (List.mem_append_right _ hmem), rfl, hc⟩

theorem Represents.search_complete {e : Elem} (he : e ∈ es)
    (hc : e.Contains addr len) : (t.search addr len).isSome := by
  unfold CtranAvlTree.search
  split
  · rfl
  · rename_i hnone
    rcases List.mem_append.mp (hrep.mem_elems.mpr he) with hm | hm
    · have hw : ∀ x ∈ t.root_.inorder, x.NoWrap := fun x hx =>
        hrep.noWrap x (hrep.mem_elems.mp (List.mem_append_left _ hx))
      have hsome := TreeElem.search_complete hrep.ordered hw hm hc
      simp [hnone] at hsome
    · rw [Option.isSome_map, searchList, List.find?_isSome]
      exact ⟨e, hm, by simpa [Elem.Contains] using hc⟩

end Represented

theorem inorder_enqueue (t : TreeElem) :
    (enqueue t).flatMap (fun s => s.inorder.map Elem.hdl) = t.inorder.map Elem.hdl := by
  cases t <;> simp [enqueue]

theorem traverse_perm (q : List TreeElem) :
    (traverse q).Perm (q.flatMap fun s => s.inorder.map Elem.hdl) := by
  induction q using traverse.induct with
  | case1 => simp [traverse]
  | case2 q ih => simpa [traverse] using ih
  | case3 e h l r q ih =>
    rw [traverse]
    simp only [List.flatMap_append, inorder_enqueue] at ih
    simp only [List.flatMap_cons, TreeElem.inorder_node, List.map_append, List.map_cons]
    have hrest : traverse (q ++ enqueue l ++ enqueue r) ~
        l.inorder.map Elem.hdl ++ (r.inorder.map Elem.hdl ++
          q.flatMap fun s => s.inorder.map Elem.hdl) := by
      refine ih.trans ?_
      rw [List.append_assoc, ← List.append_assoc (l.inorder.map _)]
      exact List.perm_append_comm
    rw [List.append_assoc, List.append_assoc, List.cons_append, ← List.append_assoc q]
    exact (hrest.cons e.hdl).trans List.perm_middle.symm

theorem getAllElems_perm (t : CtranAvlTree) : t.getAllElems.Perm (t.elems.map Elem.hdl) := by
  unfold getAllElems elems
  rw [List.map_append, ← inorder_enqueue]
  exact (traverse_perm _).append_right _

theorem step_represents {past : List Op} {t : CtranAvlTree} {op : Op}
    (hrep : Represents t (live past)) (hop : RootPresent past t op) :
    ∃ t', step t op = .ok t' ∧ Represents t' (live (past ++ [op])) := by
  rw [live_concat]
  cases op with
  | insert new => exact ⟨_, rfl, (hrep.insert hop.1.1 hop.1.2).2⟩
  | remove hdl =>
    obtain ⟨t', ht', hrep'⟩ := hrep.remove hop.1 (hop.2 hdl rfl)
    exact ⟨t', by simp [step, ht', Except.map], hrep'⟩

theorem run_represents (ops : List Op) (hops : Admissible step RootPresent [] empty ops) :
    ∃ t, run step empty ops = .ok t ∧ Represents t (live ops) :=
  run_invariant (fun past t => Represents t (live past))
    (fun _ _ _ hrep hop => step_represents hrep hop) ops represents_empty hops

/-! ### The four queries against the live elements -/

/-- The range of `e` contains `[addr, addr + len)`. -/
def Covers (e : Elem) (addr len : ℕ) : Prop := e.addr ≤ addr ∧ addr + len ≤ e.addr + e.len

theorem contains_iff_covers {e : Elem} {addr len : ℕ} (he : e.NoWrap) (hq : addr + len < 2 ^ 64) :
    e.Contains addr len ↔ Covers e addr len := by
  rw [Elem.Contains, Covers, endAddr_of_lt hq, he.endAddr_eq]

/-- The tree answers every query as the list of live elements does. -/
structure Answers (t : CtranAvlTree) (es : List Elem) : Prop where
  inserted : ∀ new, (t.insert new).1 = new.hdl
  sound : ∀ addr len hdl, addr + len < 2 ^ 64 → t.search addr len = some hdl →
    ∃ e ∈ es, e.hdl = hdl ∧ Covers e addr len
  complete : ∀ addr len, addr + len < 2 ^ 64 →
    ((t.search addr len).isSome ↔ ∃ e ∈ es, Covers e addr len)
  lookup : ∀ e ∈ es, t.lookup e.hdl = .ok e.val
  allOnce : t.getAllElems.Nodup
  all : ∀ hdl, hdl ∈ t.getAllElems ↔ ∃ e ∈ es, e.hdl = hdl

theorem Represents.inserted {t : CtranAvlTree} {es : List Elem} (hrep : Represents t es)
    (new : Elem) : (t.insert new).1 = new.hdl := by
  rw [insert_eq]
  cases hres : t.root_.insert new with
  | mk root' res =>
    cases res with
    | none => rfl
    | some hdl => exact (TreeElem.insert_some hrep.exact hrep.ordered (by rw [hres])).1

theorem Represents.answers {t : CtranAvlTree} {es : List Elem} (hrep : Represents t es) :
    Answers t es where
  inserted := hrep.inserted
  sound addr len hdl hq h := by
    obtain ⟨e, he, hhdl, hc⟩ := hrep.search_sound h
    exact ⟨e, he, hhdl, (contains_iff_covers (hrep.noWrap e he) hq).mp hc⟩
  complete addr len hq := by
    constructor
    · intro hsome
      obtain ⟨hdl, h⟩ := Option.isSome_iff_exists.mp hsome
      obtain ⟨e, he, _, hc⟩ := hrep.search_sound h
      exact ⟨e, he, (contains_iff_covers (hrep.noWrap e he) hq).mp hc⟩
    · rintro ⟨e, he, hc⟩
      exact hrep.search_complete he ((contains_iff_covers (hrep.noWrap e he) hq).mpr hc)
  lookup _ he := hrep.lookup he
  allOnce := (getAllElems_perm t).nodup_iff.mpr hrep.hdlNodup
  all hdl := by
    rw [(getAllElems_perm t).mem_iff, (hrep.perm.map Elem.hdl).mem_iff, List.mem_map]

/-- Along every run whose removals find a root, search, lookup and `getAllElems` are exact. -/
theorem answers_of_rootPresent (ops : List Op) (hops : Admissible step RootPresent [] empty ops) :
    ∃ t, run step empty ops = .ok t ∧ Answers t (live ops) := by
  obtain ⟨t, ht, hrep⟩ := run_represents ops hops
  exact ⟨t, ht, hrep.answers⟩

instance (past : List Op) (t : CtranAvlTree) : ∀ op, Decidable (WellFormed past t op)
  | .insert new => inferInstanceAs (Decidable (_ ∧ new.addr + new.len < 2 ^ 64))
  | .remove hdl => inferInstanceAs (Decidable (hdl ∈ t.handles_))

instance (past : List Op) (t : CtranAvlTree) : ∀ op, Decidable (RootPresent past t op)
  | .insert new => decidable_of_iff (WellFormed past t (.insert new)) (by simp [RootPresent])
  | .remove hdl => decidable_of_iff (WellFormed past t (.remove hdl) ∧ t.root_ ≠ .null)
      (by simp [RootPresent])

/-- Two identical ranges, a zero-length one and the removal of the one in the list. -/
theorem answers_of_rootPresent_overlapping :
    ∃ t, run step empty [.insert ⟨1, 0, 10, 7⟩, .insert ⟨2, 0, 10, 8⟩, .insert ⟨3, 20, 0, 9⟩,
        .remove 2] = .ok t ∧
      Answers t (live [.insert ⟨1, 0, 10, 7⟩, .insert ⟨2, 0, 10, 8⟩, .insert ⟨3, 20, 0, 9⟩,
        .remove 2]) :=
  answers_of_rootPresent _ (by decide)

/-- Removing the tree's last element strands the ones in the list: the next removal of a live
handle starts at a null root. -/
theorem not_answers_of_wellFormed :
    ¬ ∀ ops, Admissible step WellFormed [] empty ops →
      ∃ t, run step empty ops = .ok t ∧ Answers t (live ops) := by
  intro hall
  obtain ⟨t, ht, _⟩ := hall
    [.insert ⟨1, 0, 10, 7⟩, .insert ⟨2, 0, 10, 8⟩, .remove 1, .remove 2] (by decide)
  have hfault : run step empty [.insert ⟨1, 0, 10, 7⟩, .insert ⟨2, 0, 10, 8⟩, .remove 1,
      .remove 2] = .error .nullTreeElem := by decide
  rw [hfault] at ht
  cases ht

end CtranAvlTree
end TorchComms.AvlTree
