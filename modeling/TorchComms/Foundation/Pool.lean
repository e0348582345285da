import Mathlib.Data.List.Nodup
import Mathlib.Data.List.Perm.Basic

/-! # Pools of items

An item is on the free stack, in use, or in the hands of the thread that moves it. Users hold items
that were handed out to them. As long as no item is taken back that still has a user, no two users
hold one item.
-/
namespace TorchComms.Foundation

open Function

variable {α ι : Type*}

/-- `owner` is who an item was last handed out to. -/
structure Pool (α ι : Type*) where
  free : List α
  held : Option α
  inuse : List α
  owner : α → Option ι

namespace Pool

/-- All items. -/
def all (p : Pool α ι) : List α := p.free ++ (p.held.toList ++ p.inuse)

/-- The top of the stack is `x`. -/
def take (p : Pool α ι) (x : α) (rest : List α) : Pool α ι :=
  { p with free := rest, held := some x }

def handOut [DecidableEq α] (p : Pool α ι) (x : α) (o : ι) : Pool α ι :=
  { p with held := none, inuse := p.inuse ++ [x], owner := update p.owner x (some o) }

/-- Item `x` is the `k`-th in use. -/
def takeBack (p : Pool α ι) (x : α) (k : ℕ) : Pool α ι :=
  { p with held := some x, inuse := p.inuse.eraseIdx k }

def push (p : Pool α ι) (x : α) : Pool α ι := { p with free := x :: p.free, held := none }

variable {p : Pool α ι} {x : α} {o : ι} {k : ℕ}

theorem all_take {rest : List α} (hfree : p.free = x :: rest) (hheld : p.held = none) :
    (p.take x rest).all.Perm p.all := by
  simp only [all, take, hfree, hheld, Option.toList_some, Option.toList_none, List.nil_append,
    List.cons_append]
  exact List.perm_middle

theorem all_handOut [DecidableEq α] (hheld : p.held = some x) (o : ι) :
    (p.handOut x o).all.Perm p.all := by
  simp only [all, handOut, hheld, Option.toList_some, Option.toList_none, List.nil_append,
    List.cons_append]
  exact (List.perm_append_singleton x p.inuse).append_left p.free

theorem all_takeBack (hx : p.inuse[k]? = some x) (hheld : p.held = none) :
    (p.takeBack x k).all.Perm p.all := by
  obtain ⟨hk, rfl⟩ := List.getElem?_eq_some_iff.1 hx
  simp only [all, takeBack, hheld, Option.toList_some, Option.toList_none, List.nil_append,
    List.cons_append]
  exact (List.getElem_cons_eraseIdx_perm hk).append_left p.free

theorem all_push (hheld : p.held = some x) : (p.push x).all.Perm p.all := by
  simp only [all, push, hheld, Option.toList_some, Option.toList_none, List.nil_append,
    List.cons_append]
  exact List.perm_middle.symm

/-- Every item is in one place, and an item with a user is in use, handed out to this user. -/
structure Keeps (items : α → Prop) (live : ι → α → Prop) (p : Pool α ι) : Prop where
  nodup : p.all.Nodup
  covers : ∀ x, x ∈ p.all ↔ items x
  inuse : ∀ o x, live o x → x ∈ p.inuse
  owner : ∀ o x, live o x → p.owner x = some o

variable {items : α → Prop} {live live' : ι → α → Prop}

namespace Keeps

section

variable (h : Keeps items live p)
include h

theorem mono (hlive : ∀ o x, live' o x → live o x) : Keeps items live' p where
  __ := h
  inuse := fun o x hx => h.inuse o x (hlive o x hx)
  owner := fun o x hx => h.owner o x (hlive o x hx)

theorem unique {o' : ι} (ho : live o x) (ho' : live o' x) : o = o' :=
  Option.some.inj ((h.owner o x ho).symm.trans (h.owner o' x ho'))

theorem not_held (hheld : p.held = some x) : x ∉ p.inuse := by
  intro hx
  have hnodup := (List.nodup_append'.1 h.nodup).2.1
  rw [hheld, Option.toList_some, List.singleton_append] at hnodup
  exact (List.nodup_cons.1 hnodup).1 hx

theorem not_free (hx : x ∈ p.inuse) : x ∉ p.free := fun hfree =>
  (List.nodup_append'.1 h.nodup).2.2 hfree (List.mem_append_right _ hx)

theorem take {rest : List α} (hfree : p.free = x :: rest)
    (hheld : p.held = none) : Keeps items live (p.take x rest) where
  nodup := (all_take hfree hheld).nodup_iff.2 h.nodup
  covers := fun y => (all_take hfree hheld).mem_iff.trans (h.covers y)
  __ := h

theorem push (hheld : p.held = some x) : Keeps items live (p.push x) where
  nodup := (all_push hheld).nodup_iff.2 h.nodup
  covers := fun y => (all_push hheld).mem_iff.trans (h.covers y)
  __ := h

theorem takeBack (hx : p.inuse[k]? = some x) (hheld : p.held = none)
    (hquiet : ∀ o, ¬live o x) : Keeps items live (p.takeBack x k) where
  nodup := (all_takeBack hx hheld).nodup_iff.2 h.nodup
  covers := fun y => (all_takeBack hx hheld).mem_iff.trans (h.covers y)
  inuse := by
    intro o y hy
    have hyx : y ≠ x := by
      rintro rfl
      exact hquiet o hy
    obtain ⟨j, hj, rfl⟩ := List.mem_iff_getElem.1 (h.inuse o y hy)
    refine List.mem_eraseIdx_iff_getElem.2 ⟨j, hj, ?_, rfl⟩
    rintro rfl
    rw [List.getElem?_eq_getElem hj, Option.some.injEq] at hx
    exact hyx hx
  owner := h.owner

theorem handOut [DecidableEq α] (hheld : p.held = some x)
    (hlive : ∀ o' y, live' o' y → live o' y ∨ o' = o ∧ y = x) :
    Keeps items live' (p.handOut x o) where
  nodup := (all_handOut hheld o).nodup_iff.2 h.nodup
  covers := fun y => (all_handOut hheld o).mem_iff.trans (h.covers y)
  inuse := by
    intro o' y hy
    rcases hlive o' y hy with hold | ⟨-, rfl⟩
    · exact List.mem_append_left _ (h.inuse o' y hold)
    · exact List.mem_append_right _ (List.mem_singleton_self y)
  owner := by
    intro o' y hy
    rcases hlive o' y hy with hold | ⟨rfl, rfl⟩
    · -- the item that is handed out had no user
      have hyx : y ≠ x := by
        rintro rfl
        exact h.not_held hheld (h.inuse o' y hold)
      exact (update_of_ne hyx ..).trans (h.owner o' y hold)
    · exact update_self ..

end

end Keeps

end Pool

/-- The items are linked in this order, and the last one has no successor. -/
def Linked (next : α → Option α) : List α → Prop
  | [] => True
  | [x] => next x = none
  | x :: y :: l => next x = some y ∧ Linked next (y :: l)

namespace Linked

variable {next next' : α → Option α} {l : List α} {x y : α}

theorem mem_next (h : Linked next l) (hx : x ∈ l) (hnext : next x = some y) : y ∈ l := by
  induction l with
  | nil => exact absurd hx List.not_mem_nil
  | cons a l ih =>
    cases l with
    | nil =>
      obtain rfl := List.mem_singleton.1 hx
      have hnone : next x = none := h
      rw [hnone] at hnext
      cases hnext
    | cons b l =>
      obtain ⟨ha, hl⟩ := h
      rcases List.mem_cons.1 hx with rfl | hx
      · rw [ha, Option.some.injEq] at hnext
        rw [← hnext]
        exact List.mem_cons_of_mem _ List.mem_cons_self
      · exact List.mem_cons_of_mem _ (ih hl hx)

theorem mem_of_reaches (h : Linked next l) (hx : x ∈ l)
    (hreach : Relation.ReflTransGen (fun a b => next a = some b) x y) : y ∈ l := by
  induction hreach with
  | refl => exact hx
  | tail _ hnext ih => exact h.mem_next ih hnext

theorem congr (h : Linked next l) (hnext : ∀ x ∈ l, next' x = next x) : Linked next' l := by
  induction l with
  | nil => trivial
  | cons a l ih =>
    cases l with
    | nil => exact (hnext a List.mem_cons_self).trans h
    | cons b l =>
      obtain ⟨ha, hl⟩ := h
      refine ⟨(hnext a List.mem_cons_self).trans ha, ih hl ?_⟩
      exact fun x hx => hnext x (List.mem_cons_of_mem _ hx)

theorem append [DecidableEq α] (h : Linked next (l ++ [y])) (hnodup : (l ++ [y]).Nodup)
    (hnext : next x = none) (hx : x ∉ l ++ [y]) :
    Linked (update next y (some x)) (l ++ [y] ++ [x]) := by
  induction l with
  | nil =>
    have hxy : x ≠ y := fun heq => hx (List.mem_singleton.2 heq)
    exact ⟨update_self .., (update_of_ne hxy ..).trans hnext⟩
  | cons a l ih =>
    have ha : a ≠ y := by
      rintro rfl
      exact (List.nodup_cons.1 hnodup).1 (List.mem_append_right _ (List.mem_singleton_self a))
    have hrest := (List.nodup_cons.1 hnodup).2
    have hx' : x ∉ l ++ [y] := fun hmem => hx (List.mem_cons_of_mem _ hmem)
    cases l with
    | nil =>
      obtain ⟨hay, hl⟩ := h
      exact ⟨(update_of_ne ha ..).trans hay, ih hl hrest hx'⟩
    | cons b l =>
      obtain ⟨hab, hl⟩ := h
      exact ⟨(update_of_ne ha ..).trans hab, ih hl hrest hx'⟩

end Linked

end TorchComms.Foundation
