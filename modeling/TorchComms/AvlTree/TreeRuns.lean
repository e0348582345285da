import TorchComms.AvlTree.Balance
import TorchComms.AvlTree.Tree

/-! # Runs of insertions and removals

Whatever is inserted and removed, the tree stays exact and in order, and balanced as long as nothing
is removed. A removal does what it is asked as long as it finds a root.
-/
namespace TorchComms.AvlTree.CtranAvlTree

open Foundation

/-- A new record has an address of its own. Any pointer may be passed to a removal. -/
def Allocated (_ : List Op) (t : CtranAvlTree) : Op → Prop
  | .insert new => new.hdl ∉ t.handles_
  | .remove _ => True

instance (past : List Op) (t : CtranAvlTree) : ∀ op, Decidable (Allocated past t op)
  | .insert new => inferInstanceAs (Decidable (new.hdl ∉ t.handles_))
  | .remove _ => inferInstanceAs (Decidable True)

/-- Moreover, the removal of a live handle finds a root. -/
def Removable (past : List Op) (t : CtranAvlTree) (op : Op) : Prop :=
  Allocated past t op ∧ ∀ hdl, op = .remove hdl → hdl ∈ t.handles_ → t.root_ ≠ .null

instance (past : List Op) (t : CtranAvlTree) : ∀ op, Decidable (Removable past t op)
  | .insert new => decidable_of_iff (Allocated past t (.insert new)) (by simp [Removable])
  | .remove hdl => decidable_of_iff (hdl ∈ t.handles_ → t.root_ ≠ .null)
      (by simp [Removable, Allocated])

def Op.isInsert : Op → Bool
  | .insert _ => true
  | .remove _ => false

/-- The removal of a live handle takes out its element and leaves every other one, and every other
handle with its value; the removal of another handle is refused. -/
def RemovesExactly (t : CtranAvlTree) (hdl : Handle) : Prop :=
  if hdl ∈ t.handles_ then
    ∃ t', t.remove hdl = .ok (.commSuccess, t') ∧
      t'.elems.Perm (TreeElem.dropHdl hdl t.elems) ∧ t'.handles_ = t.handles_.erase hdl ∧
      ∀ h ∈ t'.handles_, t'.lookup h = t.lookup h
  else t.remove hdl = .ok (.commInvalidUsage, t)

variable {t : CtranAvlTree} {es : List Elem} {past : List Op} {hdl : Handle}

theorem remove_dead (hdead : hdl ∉ t.handles_) : t.remove hdl = .ok (.commInvalidUsage, t) := by
  rw [remove, if_pos hdead]

theorem remove_null (hlive : hdl ∈ t.handles_) (hroot : t.root_ = .null) :
    t.remove hdl = .error .nullTreeElem := by
  rw [remove, if_neg (not_not.mpr hlive), if_pos hroot]

theorem Holds.drop_dead (h : Holds t es) (hdead : hdl ∉ t.handles_) :
    TreeElem.dropHdl hdl es = es := by
  apply TreeElem.dropHdl_eq_self
  intro x hx heq
  exact hdead ((h.handles hdl).mpr ⟨x, hx, heq⟩)

theorem step_holds {op : Op} (h : Holds t (live past)) (hop : Removable past t op) :
    ∃ t', step t op = .ok t' ∧ Holds t' (live (past ++ [op])) := by
  rw [live_concat]
  cases op with
  | insert new => exact ⟨_, rfl, (h.insert hop.1).2⟩
  | remove hdl =>
    by_cases hlive : hdl ∈ t.handles_
    · obtain ⟨t', hok, h'⟩ := h.remove hlive (hop.2 hdl rfl hlive)
      exact ⟨t', by simp only [step, hok, Except.map], h'⟩
    · refine ⟨t, by simp only [step, remove_dead hlive, Except.map], ?_⟩
      rw [liveStep, h.drop_dead hlive]
      exact h

/-! ### The structure -/

theorem balanced_insert {new : Elem} (h : Holds t es) (hb : t.root_.Balanced) :
    (t.insert new).2.root_.Balanced := by
  have hbal := (TreeElem.balanced_insert new h.exact hb).1
  rw [insert_eq]
  cases hres : t.root_.insert new with
  | mk root' res =>
    rw [hres] at hbal
    cases res with
    | none => exact hbal
    | some hdl => exact hbal

theorem run_holds (ops : List Op) (hops : Admissible step Allocated [] empty ops) :
    (∃ t, run step empty ops = .ok t ∧ Holds t (live ops)) ∨
      ∃ e, run step empty ops = .error e ∧ e = .nullTreeElem := by
  apply run_invariant_or_stops (fun past t => Holds t (live past)) _ _ ops holds_empty hops
  intro past t op h hop
  by_cases hfinds : Removable past t op
  · exact Or.inl (step_holds h hfinds)
  · right
    cases op with
    | insert new => exact absurd ⟨hop, fun _ heq => by cases heq⟩ hfinds
    | remove hdl =>
      have hnull : hdl ∈ t.handles_ ∧ t.root_ = .null := by
        by_contra hnot
        apply hfinds
        refine ⟨trivial, ?_⟩
        rintro hdl' heq hlive hroot
        cases heq
        exact hnot ⟨hlive, hroot⟩
      exact ⟨.nullTreeElem, by simp only [step, remove_null hnull.1 hnull.2, Except.map], rfl⟩

theorem run_balanced (ops : List Op) (hops : Admissible step Allocated [] empty ops)
    (hall : ops.all Op.isInsert) :
    ∃ t, run step empty ops = .ok t ∧ Holds t (live ops) ∧ t.root_.Balanced := by
  apply run_invariant (fun past t => Holds t (live past) ∧ t.root_.Balanced) _ ops
    ⟨holds_empty, trivial⟩ (hops.and_mem fun _ h => h)
  rintro past t op ⟨h, hb⟩ ⟨hop, hmem⟩
  cases op with
  | insert new =>
    refine ⟨_, rfl, ?_, balanced_insert h hb⟩
    rw [live_concat]
    exact (h.insert hop).2
  | remove hdl => exact absurd (List.all_eq_true.mp hall _ hmem) Bool.false_ne_true

/-- In every run the cached heights are the true ones and the elements are in order, one ending
before the next one starts. Insertions alone keep the tree balanced. -/
theorem structure_exact (ops : List Op) (hops : Admissible step Allocated [] empty ops) :
    (∀ t, run step empty ops = .ok t → t.root_.CachesDepth ∧ t.root_.Ordered) ∧
      (∀ e, run step empty ops = .error e → e = .nullTreeElem) ∧
      (ops.all Op.isInsert → ∃ t, run step empty ops = .ok t ∧ t.root_.Balanced) := by
  refine ⟨?_, ?_, ?_⟩
  · intro t hok
    rcases run_holds ops hops with ⟨t', hok', h⟩ | ⟨e, herr, _⟩
    · rw [hok, Except.ok.injEq] at hok'
      subst hok'
      exact ⟨h.exact.cachesDepth, h.ordered⟩
    · rw [hok] at herr
      cases herr
  · intro e herr
    rcases run_holds ops hops with ⟨t, hok, _⟩ | ⟨e', herr', he⟩
    · rw [hok] at herr
      cases herr
    · rw [herr, Except.error.injEq] at herr'
      rw [herr', he]
  · intro hall
    obtain ⟨t, hok, _, hb⟩ := run_balanced ops hops hall
    exact ⟨t, hok, hb⟩

/-- Insertions that rotate, one that overlaps, and a removal. -/
def rotations : List Op :=
  [.insert ⟨1, 30, 10, 0⟩, .insert ⟨2, 10, 10, 0⟩, .insert ⟨3, 20, 10, 0⟩,
    .insert ⟨4, 25, 10, 0⟩, .remove 3]

theorem structure_exact_rotations :
    (∀ t, run step empty rotations = .ok t → t.root_.CachesDepth ∧ t.root_.Ordered) ∧
      (∀ e, run step empty rotations = .error e → e = .nullTreeElem) ∧
      (rotations.all Op.isInsert → ∃ t, run step empty rotations = .ok t ∧ t.root_.Balanced) :=
  structure_exact rotations (by decide)

/-! ### Removal -/

theorem Holds.lookup_of_mem (h : Holds t es) {t' : CtranAvlTree} {es' : List Elem}
    (h' : Holds t' es') (hsub : ∀ e ∈ es', e ∈ es) (hlive : hdl ∈ t'.handles_) :
    t'.lookup hdl = t.lookup hdl := by
  obtain ⟨e, he, rfl⟩ := (h'.handles hdl).mp hlive
  rw [h'.lookup he, h.lookup (hsub e he)]

theorem Holds.removesExactly_iff (h : Holds t es) (hdl : Handle) :
    t.RemovesExactly hdl ↔ (hdl ∈ t.handles_ → t.root_ ≠ .null) := by
  rw [RemovesExactly]
  split
  · rename_i hlive
    constructor
    · rintro ⟨t', hok, _⟩ _ hroot
      rw [remove_null hlive hroot] at hok
      cases hok
    · intro hroot
      obtain ⟨t', hok, h'⟩ := h.remove hlive (hroot hlive)
      have hhandles : t'.handles_ = t.handles_.erase hdl := by
        simp only [CtranAvlTree.remove, hlive, not_true_eq_false, if_false, hroot hlive] at hok
        split at hok
        · cases hok
        · cases hok
          rfl
      refine ⟨t', hok, h'.perm.trans (h.perm.filter _).symm, hhandles, ?_⟩
      intro hdl' hlive'
      exact h.lookup_of_mem h' (fun e he => List.mem_of_mem_filter he) hlive'
  · rename_i hdead
    exact ⟨fun _ hlive => absurd hlive hdead, fun _ => remove_dead hdead⟩

/-- In every run whose removals of live handles find a root, the next removal does exactly what it
is asked if and only if it finds one too, or its handle is not live. -/
theorem removesExactly_of_removable (ops : List Op)
    (hops : Admissible step Removable [] empty ops) :
    ∃ t, run step empty ops = .ok t ∧ Holds t (live ops) ∧
      ∀ hdl, t.RemovesExactly hdl ↔ (hdl ∈ t.handles_ → t.root_ ≠ .null) := by
  obtain ⟨t, hok, h⟩ := run_invariant (fun past t => Holds t (live past))
    (fun _ _ _ h hop => step_holds h hop) ops holds_empty hops
  exact ⟨t, hok, h, h.removesExactly_iff⟩

/-- One element in the tree and one in the list, and a handle that was removed before. -/
theorem removesExactly_of_removable_overlapping :
    ∃ t, run step empty [.insert ⟨1, 0, 10, 7⟩, .insert ⟨2, 0, 10, 8⟩, .insert ⟨3, 20, 5, 9⟩,
        .remove 2, .remove 2] = .ok t ∧
      Holds t (live [.insert ⟨1, 0, 10, 7⟩, .insert ⟨2, 0, 10, 8⟩, .insert ⟨3, 20, 5, 9⟩,
        .remove 2, .remove 2]) ∧
      ∀ hdl, t.RemovesExactly hdl ↔ (hdl ∈ t.handles_ → t.root_ ≠ .null) :=
  removesExactly_of_removable _ (by decide)

/-- Two ranges that overlap, of which the one in the tree is removed first. -/
theorem not_removesExactly_stranded :
    ¬ ∀ ops, Admissible step Allocated [] empty ops →
      ∃ t, run step empty ops = .ok t ∧ ∀ hdl, t.RemovesExactly hdl := by
  intro hall
  obtain ⟨t, hok, hremoves⟩ := hall
    [.insert ⟨1, 0, 10, 7⟩, .insert ⟨2, 0, 10, 8⟩, .remove 1] (by decide)
  cases hok
  obtain ⟨t', hok', _⟩ := hremoves 2
  cases hok'

end TorchComms.AvlTree.CtranAvlTree
