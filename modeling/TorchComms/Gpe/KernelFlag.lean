import Mathlib.Data.List.Nodup
import Mathlib.Data.List.Perm.Basic

/-! # Kernel flags

A kernel and the GPE thread meet at a flag for each thread block. Both sides are given here by their
program points, with one load or store of a flag word in each step.
-/
namespace TorchComms.Gpe

inductive KernelFlag
  | KERNEL_UNSET
  | KERNEL_SCHEDULED
  | KERNEL_STARTED
  | KERNEL_TERMINATE
  | KERNEL_STARTED_AND_EXIT
  | KERNEL_HOST_ABORT
  deriving DecidableEq, Repr

/-- The words of `flag_`, of which the first `numGroups_` are in use. -/
abbrev Flags := ℕ → KernelFlag

/-- A thread block, by what it does next: the test of `KernelStartGpe` and its store, the kernel's
work, the loop of `KernelWaitGpeTerminate` and its store. -/
inductive BlockPhase
  | scheduled
  | starting
  | running
  | waiting
  | leaving
  | exited
  deriving DecidableEq, Repr

/-- The value that lets a block leave `KernelWaitGpeTerminate`. -/
def KernelFlag.releases (enableCancellableWaits : Bool) (f : KernelFlag) : Bool :=
  f = .KERNEL_TERMINATE || (enableCancellableWaits && f = .KERNEL_HOST_ABORT)

/-- One step of a block, with its flag before and after. -/
inductive BlockStep (enableCancellableWaits : Bool) :
    BlockPhase → KernelFlag → BlockPhase → KernelFlag → Prop
  | test (f : KernelFlag) (h : ¬(enableCancellableWaits = true ∧ f = .KERNEL_HOST_ABORT)) :
      BlockStep enableCancellableWaits .scheduled f .starting f
  | abort (h : enableCancellableWaits = true) :
      BlockStep enableCancellableWaits .scheduled .KERNEL_HOST_ABORT .running .KERNEL_HOST_ABORT
  | start (f : KernelFlag) : BlockStep enableCancellableWaits .starting f .running .KERNEL_STARTED
  | work (f : KernelFlag) : BlockStep enableCancellableWaits .running f .waiting f
  | leave (f : KernelFlag) (h : f.releases enableCancellableWaits = true) :
      BlockStep enableCancellableWaits .waiting f .leaving f
  | unset (f : KernelFlag) : BlockStep enableCancellableWaits .leaving f .exited .KERNEL_UNSET

/-- The GPE thread during one command, by what it does next: the wait for the start of block 0, the
operation, `setFlagPerGroup`, the wait for `KERNEL_UNSET`, the rewriting to `KERNEL_HOST_ABORT` as a
test and a store for each flag; for a kernel that exits on its own, the wait for all blocks and the
reset. -/
inductive GpePhase
  | waitStart
  | running
  | settling (v : KernelFlag) (i : ℕ)
  | waitUnset (i : ℕ)
  | rewriting (i : ℕ)
  | rewrite (i : ℕ)
  | waitExit (i : ℕ)
  | resetting (i : ℕ)
  | done
  deriving DecidableEq, Repr

namespace GpePhase

/-- The next program point, or none while the thread keeps polling for the start, and at the end. -/
def next (numGroups : ℕ) (abortEnabled testAbort : Bool) (flag : Flags) : GpePhase → Option GpePhase
  | waitStart =>
    if flag 0 = .KERNEL_STARTED ∨ flag 0 = .KERNEL_STARTED_AND_EXIT ∨ testAbort = true then
      some running
    else none
  | running =>
    if flag 0 = .KERNEL_STARTED_AND_EXIT then some (waitExit 0)
    else some (settling (if testAbort then .KERNEL_HOST_ABORT else .KERNEL_TERMINATE) 0)
  | settling v i =>
    if i < numGroups then some (settling v (i + 1))
    else if abortEnabled then some (waitUnset 0)
    else some done
  | waitUnset i =>
    if i < numGroups ∧ flag i = .KERNEL_UNSET then some (waitUnset (i + 1))
    else if testAbort then some (rewriting 0)
    else if i < numGroups then some (waitUnset 0)
    else some done
  | rewriting i =>
    if i < numGroups then
      if flag i = .KERNEL_TERMINATE then some (rewrite i) else some (rewriting (i + 1))
    else some done
  | rewrite i => some (rewriting (i + 1))
  | waitExit i =>
    if i < numGroups then
      if flag i = .KERNEL_STARTED_AND_EXIT then some (waitExit (i + 1)) else some (waitExit 0)
    else some (resetting 0)
  | resetting i => if i < numGroups then some (resetting (i + 1)) else some done
  | done => none

/-- The store that the thread makes in its next step. -/
def stores (numGroups : ℕ) : GpePhase → Option (ℕ × KernelFlag)
  | settling v i => if i < numGroups then some (i, v) else none
  | rewrite i => some (i, .KERNEL_HOST_ABORT)
  | resetting i => if i < numGroups then some (i, .KERNEL_UNSET) else none
  | _ => none

/-- The flags after the next step. -/
def effect (numGroups : ℕ) (p : GpePhase) (flag : Flags) : Flags :=
  match p.stores numGroups with
  | some (i, v) => Function.update flag i v
  | none => flag

end GpePhase

end TorchComms.Gpe

/-! ## Kernel elements

The GPE thread and the thread blocks of a kernel meet at an element with one status word for each
block that takes part.
-/
namespace TorchComms.Gpe

inductive ElemStatus
  | RESET
  | INUSE
  | POSTED
  | REVOKED
  | DONE
  deriving DecidableEq, Repr

end TorchComms.Gpe

/-! ## The pool of kernel flags

A flag that was handed out comes back when the pool finds its words unset.
-/
namespace TorchComms.Gpe

open Function

structure KernelFlagItem where
  flag_ : Flags
  numGroups_ : ℕ

namespace KernelFlagItem

def reset (x : KernelFlagItem) : KernelFlagItem :=
  { x with flag_ := fun i => if i < x.numGroups_ then .KERNEL_UNSET else x.flag_ i }

def inUse (x : KernelFlagItem) : Bool :=
  decide (∃ i < x.numGroups_, x.flag_ i ≠ .KERNEL_UNSET)

def onPop : KernelFlagItem := ⟨fun _ => .KERNEL_SCHEDULED, 1⟩

variable {x : KernelFlagItem}

theorem inUse_eq_false : x.inUse = false ↔ ∀ i < x.numGroups_, x.flag_ i = .KERNEL_UNSET := by
  simp [inUse]

theorem inUse_reset (x : KernelFlagItem) : x.reset.inUse = false := by
  rw [inUse_eq_false]
  exact fun i hi => if_pos hi

theorem reset_of_not_inUse (h : x.inUse = false) : x.reset = x := by
  obtain ⟨flag, numGroups⟩ := x
  rw [inUse_eq_false] at h
  rw [reset, mk.injEq]
  refine ⟨?_, rfl⟩
  funext i
  split
  next hi => exact (h i hi).symm
  next => rfl

theorem inUse_onPop (n : ℕ) : { onPop with numGroups_ := n }.inUse = false ↔ n = 0 := by
  rw [inUse_eq_false]
  constructor
  · intro h
    by_contra hn
    exact KernelFlag.noConfusion (h 0 (Nat.pos_of_ne_zero hn))
  · rintro rfl
    exact fun i hi => absurd hi (Nat.not_lt_zero i)

end KernelFlagItem

/-- `PinnedHostPool<KernelFlagItem>`; the stack of free items has its top in front. -/
structure KernelFlagPool where
  item : ℕ → KernelFlagItem
  freeItems_ : List ℕ
  inuseItems_ : List ℕ
  nodup : (freeItems_ ++ inuseItems_).Nodup

namespace KernelFlagPool

variable {p : KernelFlagPool} {k f : ℕ}

def setItem (p : KernelFlagPool) (k : ℕ) (x : KernelFlagItem) : KernelFlagPool :=
  { p with item := update p.item k x }

def pop (p : KernelFlagPool) : Option (ℕ × KernelFlagPool) :=
  match hfree : p.freeItems_ with
  | [] => none
  | k :: rest => some (k, {
      item := update p.item k .onPop
      freeItems_ := rest
      inuseItems_ := p.inuseItems_ ++ [k]
      nodup := by
        have hnodup := p.nodup
        rw [hfree, List.cons_append] at hnodup
        rw [← List.append_assoc]
        exact (List.perm_append_singleton _ _).nodup_iff.mpr hnodup })

def reclaim (p : KernelFlagPool) : KernelFlagPool where
  item f := if f ∈ p.inuseItems_ ∧ (p.item f).inUse = false then (p.item f).reset else p.item f
  freeItems_ := (p.inuseItems_.filter fun f => !(p.item f).inUse).reverse ++ p.freeItems_
  inuseItems_ := p.inuseItems_.filter fun f => (p.item f).inUse
  nodup := by
    have hsplit := List.filter_append_perm (fun f => (p.item f).inUse) p.inuseItems_
    refine List.Perm.nodup ?_ p.nodup
    refine (hsplit.symm.append_left _).trans ?_
    refine (List.perm_append_comm.append_left _).trans ?_
    refine (List.perm_append_comm_assoc _ _ _).trans ?_
    rw [List.append_assoc]
    exact (List.reverse_perm _).symm.append_right _

/-- An item is handed out from wherever it is. -/
def take (p : KernelFlagPool) (k : ℕ) : KernelFlagPool where
  item := update p.item k .onPop
  freeItems_ := p.freeItems_.filter (· ≠ k)
  inuseItems_ := p.inuseItems_.filter (· ≠ k) ++ [k]
  nodup := by
    rw [← List.append_assoc, ← List.filter_append, ← List.concat_eq_append]
    refine (p.nodup.filter _).concat fun hmem => ?_
    simpa using (List.mem_filter.mp hmem).2

/-! ### Items that can be had -/

/-- The item belongs to the pool. -/
def Owns (p : KernelFlagPool) (f : ℕ) : Prop := f ∈ p.freeItems_ ∨ f ∈ p.inuseItems_

/-- The item is free, or the pool can reclaim it. -/
def Available (p : KernelFlagPool) (f : ℕ) : Prop :=
  f ∈ p.freeItems_ ∨ f ∈ p.inuseItems_ ∧ (p.item f).inUse = false

theorem available_iff : p.Available f ↔
    p.Owns f ∧ (f ∈ p.freeItems_ ∨ (p.item f).inUse = false) := by
  unfold Available Owns
  tauto

theorem pop_of_free {rest : List ℕ} (hfree : p.freeItems_ = k :: rest) :
    p.pop = some (k, p.take k) := by
  obtain ⟨item, free, inuse, hnodup⟩ := p
  subst hfree
  have hk := (List.nodup_cons.mp hnodup).1
  have hrest : (k :: rest).filter (· ≠ k) = rest := by
    rw [List.filter_cons_of_neg (by simp), List.filter_eq_self]
    intro f hf
    simp only [decide_eq_true_eq]
    exact fun heq => hk (heq ▸ List.mem_append_left _ hf)
  have hinuse : inuse.filter (· ≠ k) = inuse := by
    rw [List.filter_eq_self]
    intro f hf
    simp only [decide_eq_true_eq]
    exact fun heq => hk (heq ▸ List.mem_append_right _ hf)
  simp only [pop, take, hrest, hinuse]

@[simp] theorem mem_free_take : f ∈ (p.take k).freeItems_ ↔ f ∈ p.freeItems_ ∧ f ≠ k := by
  simp [take]

@[simp] theorem mem_inuse_take :
    f ∈ (p.take k).inuseItems_ ↔ f ∈ p.inuseItems_ ∧ f ≠ k ∨ f = k := by
  simp [take]

theorem take_item_self : (p.take k).item k = .onPop := update_self _ _ _

theorem take_item_of_ne (hne : f ≠ k) : (p.take k).item f = p.item f := update_of_ne hne _ _

variable {x : KernelFlagItem}

theorem setItem_self : (p.setItem k x).item k = x := update_self _ _ _

theorem setItem_of_ne (hne : f ≠ k) : (p.setItem k x).item f = p.item f :=
  update_of_ne hne _ _

theorem reclaim_item : p.reclaim.item = p.item := by
  funext f
  simp only [reclaim]
  split
  next h => exact KernelFlagItem.reset_of_not_inUse h.2
  next => rfl

theorem mem_free_reclaim : f ∈ p.reclaim.freeItems_ ↔ p.Available f := by
  simp [reclaim, Available, or_comm]

theorem owns_reclaim : p.reclaim.Owns f ↔ p.Owns f := by
  rw [Owns, mem_free_reclaim, Available, Owns]
  simp only [reclaim, List.mem_filter]
  cases (p.item f).inUse <;> simp

theorem available_reclaim : p.reclaim.Available f ↔ p.Available f := by
  rw [Available, mem_free_reclaim, reclaim_item]
  refine or_iff_left_of_imp fun h => ?_
  have hinuse : (p.item f).inUse = true := (List.mem_filter.mp h.1).2
  rw [h.2] at hinuse
  cases hinuse

end KernelFlagPool

end TorchComms.Gpe
