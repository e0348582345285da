import Mathlib.Data.List.Range

/-! # Cells with one owner

Tasks load one cell of each of some arrays into registers and store a value computed from these into
one cell of each of some others, at any time between the steps of other tasks. Where no other task
stores what a task loads, the order does not matter.
-/
namespace TorchComms.Foundation
open Function

variable {V β α : Type*} [DecidableEq V] [DecidableEq β]

inductive Access (V : Type*)
  | load (v : V) (j : ℕ)
  | store (v : V) (d : ℕ)

structure Cells (V β α : Type*) where
  mem : β → ℕ → α
  regs : V → ℕ → α

/-- Which arrays and cells the tasks work on and what they compute from `numSrcs` loads. -/
structure Tasks (V β α : Type*) where
  numSrcs : ℕ
  numDsts : ℕ
  srcs : ℕ → β
  dsts : ℕ → β
  source : V → ℕ
  target : V → ℕ
  value : List α → α

variable (T : Tasks V β α)

def Tasks.step (c : Cells V β α) : Access V → Cells V β α
  | .load v j =>
    { c with regs := update c.regs v (update (c.regs v) j (c.mem (T.srcs j) (T.source v))) }
  | .store v d =>
    { c with mem := update c.mem (T.dsts d) (update (c.mem (T.dsts d)) (T.target v)
        (T.value ((List.range T.numSrcs).map (c.regs v)))) }

def Tasks.final (c : Cells V β α) (trace : List (Access V)) : Cells V β α := trace.foldl T.step c

/-- The tasks that run, each with all its loads before its stores. -/
structure Tasks.Ordered (runs : V → Prop) (trace : List (Access V)) : Prop where
  loads : ∀ v j, .load v j ∈ trace → runs v
  stores : ∀ v d, .store v d ∈ trace → runs v ∧ d < T.numDsts
  loaded : ∀ past v d rest, trace = past ++ .store v d :: rest →
    ∀ j < T.numSrcs, .load v j ∈ past
  unstored : ∀ past v j rest, trace = past ++ .load v j :: rest → ∀ d, .store v d ∉ past
  complete : ∀ v, runs v → ∀ d < T.numDsts, .store v d ∈ trace

variable {T} {runs : V → Prop} {c : Cells V β α} {past rest trace : List (Access V)} {v : V}
  {j d : ℕ}

/-- What the memory holds when the tasks of some stores are done. -/
structure Tasks.Midway (T : Tasks V β α) (c : Cells V β α) (past : List (Access V))
    (now : Cells V β α) : Prop where
  regs : ∀ v j, .load v j ∈ past → now.regs v j = c.mem (T.srcs j) (T.source v)
  stored : ∀ v d, .store v d ∈ past → now.mem (T.dsts d) (T.target v) =
    T.value ((List.range T.numSrcs).map fun j => c.mem (T.srcs j) (T.target v))
  kept : ∀ b x, (∀ v d, .store v d ∈ past → T.dsts d = b → T.target v ≠ x) →
    now.mem b x = c.mem b x

omit [DecidableEq V] [DecidableEq β] in
theorem Tasks.Midway.initial : T.Midway c [] c := by
  constructor
  · intro v j h
    cases h
  · intro v d h
    cases h
  · exact fun _ _ _ => rfl

theorem Tasks.Midway.load {now : Cells V β α} (h : T.Midway c past now)
    (hfree : ∀ v' d, .store v' d ∈ past → T.target v' ≠ T.source v) :
    T.Midway c (past ++ [.load v j]) (T.step now (.load v j)) := by
  constructor
  · intro v' j' hmem
    by_cases heq : v' = v ∧ j' = j
    · obtain ⟨rfl, rfl⟩ := heq
      simp only [Tasks.step, update_self]
      exact h.kept _ _ fun v' d hd _ => hfree v' d hd
    · have hpast : .load v' j' ∈ past := by
        rcases List.mem_append.mp hmem with hmem | hmem
        · exact hmem
        · cases List.mem_singleton.mp hmem
          exact absurd ⟨rfl, rfl⟩ heq
      rw [← h.regs v' j' hpast]
      by_cases hv : v' = v
      · subst hv
        have hj : j' ≠ j := fun hj => heq ⟨rfl, hj⟩
        simp only [Tasks.step, update_self, update_of_ne hj]
      · simp only [Tasks.step, update_of_ne hv]
  · intro v' d hmem
    exact h.stored v' d (by simpa using hmem)
  · intro b x hno
    exact h.kept b x fun v' d hd => hno v' d (List.mem_append_left _ hd)

theorem Tasks.Midway.store {now : Cells V β α} (h : T.Midway c past now)
    (hloaded : ∀ j < T.numSrcs, .load v j ∈ past) (hsame : T.source v = T.target v) :
    T.Midway c (past ++ [.store v d]) (T.step now (.store v d)) := by
  have hvalue : T.value ((List.range T.numSrcs).map (now.regs v)) =
      T.value ((List.range T.numSrcs).map fun j => c.mem (T.srcs j) (T.target v)) := by
    congr 1
    apply List.map_congr_left
    intro j hj
    rw [← hsame]
    exact h.regs v j (hloaded j (List.mem_range.mp hj))
  have hmem : ∀ b x, (T.step now (.store v d)).mem b x =
      if b = T.dsts d ∧ x = T.target v then
        T.value ((List.range T.numSrcs).map fun j => c.mem (T.srcs j) (T.target v))
      else now.mem b x := by
    intro b x
    rw [← hvalue]
    by_cases hb : b = T.dsts d
    · subst hb
      by_cases hx : x = T.target v
      · subst hx
        simp [Tasks.step]
      · simp [Tasks.step, hx]
    · simp [Tasks.step, hb]
  constructor
  · intro v' j hmem
    exact h.regs v' j (by simpa using hmem)
  · intro v' d' hst
    rw [hmem]
    split
    · next heq => rw [heq.2]
    · next hne =>
      apply h.stored
      rcases List.mem_append.mp hst with hst | hst
      · exact hst
      · cases List.mem_singleton.mp hst
        exact absurd ⟨rfl, rfl⟩ hne
  · intro b x hno
    rw [hmem, if_neg]
    · exact h.kept b x fun v' d' hd => hno v' d' (List.mem_append_left _ hd)
    · rintro ⟨rfl, rfl⟩
      exact hno v d (List.mem_append_right _ (List.mem_singleton_self _)) rfl rfl

/-- What a task loads is stored by no other one. -/
structure Tasks.Owned (T : Tasks V β α) (runs : V → Prop) : Prop where
  same : ∀ v, runs v → T.source v = T.target v
  alone : ∀ v v', runs v → runs v' → T.target v = T.target v' → v = v'

section

variable (hown : T.Owned runs) (h : T.Ordered runs trace)
include hown h

theorem Tasks.midway : T.Midway c trace (T.final c trace) := by
  suffices hall : ∀ past rest, trace = past ++ rest → T.Midway c past (T.final c past) from
    hall trace [] (List.append_nil _).symm
  intro past
  induction past using List.reverseRecOn with
  | nil => exact fun _ _ => .initial
  | append_singleton past e ih =>
    intro rest heq
    rw [List.append_assoc, List.singleton_append] at heq
    have hnow := ih _ heq
    rw [Tasks.final, List.foldl_append]
    cases e with
    | load v j =>
      apply hnow.load
      intro v' d hst htarget
      have hv := h.loads v j (heq ▸ List.mem_append_right _ List.mem_cons_self)
      have hv' := (h.stores v' d (heq ▸ List.mem_append_left _ hst)).1
      -- the task itself stores only after its loads
      have hsame := hown.alone v' v hv' hv (htarget.trans (hown.same v hv))
      subst hsame
      exact h.unstored _ _ _ _ heq d hst
    | store v d =>
      have hv := (h.stores v d (heq ▸ List.mem_append_right _ List.mem_cons_self)).1
      exact hnow.store (h.loaded _ _ _ _ heq) (hown.same v hv)

/-- The arrays after all tasks. -/
theorem Tasks.final_mem {x : ℕ} (hv : runs v) (hd : d < T.numDsts) (hx : T.target v = x) :
    (T.final c trace).mem (T.dsts d) x =
      T.value ((List.range T.numSrcs).map fun j => c.mem (T.srcs j) x) := by
  subst hx
  exact (Tasks.midway hown h).stored v d (h.complete v hv d hd)

theorem Tasks.final_kept {b : β} {x : ℕ}
    (hno : ∀ v d, runs v → d < T.numDsts → T.dsts d = b → T.target v ≠ x) :
    (T.final c trace).mem b x = c.mem b x := by
  apply (Tasks.midway hown h).kept
  intro v d hst hb
  obtain ⟨hv, hd⟩ := h.stores v d hst
  exact hno v d hv hd hb

end

end TorchComms.Foundation

/-! ## Copies that may repeat each other

A copy loads a cell into its register and stores the register into another cell. Several may have
one target as long as they have one source, and a source may be a target of what it holds itself.
-/
namespace TorchComms.Foundation
open Function

variable {κ A α : Type*} [DecidableEq κ] [DecidableEq A]

inductive CopyEvent (κ : Type*)
  | load (c : κ)
  | store (c : κ)

structure Copying (κ A α : Type*) where
  mem : A → α
  regs : κ → α

structure Copies (κ A : Type*) where
  source : κ → A
  target : κ → A

variable (C : Copies κ A)

def Copies.step (s : Copying κ A α) : CopyEvent κ → Copying κ A α
  | .load c => { s with regs := update s.regs c (s.mem (C.source c)) }
  | .store c => { s with mem := update s.mem (C.target c) (s.regs c) }

def Copies.final (s : Copying κ A α) (trace : List (CopyEvent κ)) : Copying κ A α :=
  trace.foldl C.step s

/-- The copies that run, each with a load before its stores. -/
structure Copies.Ordered (runs : κ → Prop) (trace : List (CopyEvent κ)) : Prop where
  loads : ∀ c, .load c ∈ trace → runs c
  stores : ∀ c, .store c ∈ trace ↔ runs c
  loaded : ∀ past c rest, trace = past ++ .store c :: rest → .load c ∈ past

structure Copies.Harmless (runs : κ → Prop) : Prop where
  kept : ∀ c c', runs c → runs c' → C.target c = C.source c' → C.source c = C.target c
  same : ∀ c c', runs c → runs c' → C.target c = C.target c' → C.source c = C.source c'

/-- What the memory holds when some of the stores are done. -/
structure Copies.Midway (s : Copying κ A α) (past : List (CopyEvent κ)) (now : Copying κ A α) :
    Prop where
  regs : ∀ c, .load c ∈ past → now.regs c = s.mem (C.source c)
  stored : ∀ c, .store c ∈ past → now.mem (C.target c) = s.mem (C.source c)
  kept : ∀ a, (∀ c, .store c ∈ past → C.target c ≠ a) → now.mem a = s.mem a

variable {C} {runs : κ → Prop} {s now : Copying κ A α} {past trace : List (CopyEvent κ)} {c : κ}

theorem Copies.Midway.load (h : C.Midway s past now) (hharmless : C.Harmless runs) (hc : runs c)
    (hpast : ∀ c', .store c' ∈ past → runs c') :
    C.Midway s (past ++ [.load c]) (C.step now (.load c)) := by
  constructor
  · intro c' hmem
    by_cases heq : c' = c
    · subst heq
      simp only [Copies.step, update_self]
      by_cases hstored : ∃ c, .store c ∈ past ∧ C.target c = C.source c'
      · rcases hstored with ⟨c, hst, htarget⟩
        rw [← htarget, h.stored c hst, hharmless.kept c c' (hpast c hst) hc htarget]
      · exact h.kept _ fun c hst htarget => hstored ⟨c, hst, htarget⟩
    · simp only [Copies.step, update_of_ne heq]
      apply h.regs c'
      simpa [heq] using hmem
  · intro c' hmem
    exact h.stored c' (by simpa using hmem)
  · intro a hno
    exact h.kept a fun c' hst => hno c' (List.mem_append_left _ hst)

theorem Copies.Midway.store (h : C.Midway s past now) (hharmless : C.Harmless runs) (hc : runs c)
    (hpast : ∀ c', .store c' ∈ past → runs c') (hloaded : .load c ∈ past) :
    C.Midway s (past ++ [.store c]) (C.step now (.store c)) := by
  constructor
  · intro c' hmem
    exact h.regs c' (by simpa using hmem)
  · intro c' hmem
    by_cases heq : C.target c' = C.target c
    · simp only [Copies.step, heq, update_self]
      rw [h.regs c hloaded]
      rcases List.mem_append.mp hmem with hst | hst
      · rw [hharmless.same c c' hc (hpast c' hst) heq.symm]
      · cases List.mem_singleton.mp hst
        rfl
    · simp only [Copies.step, update_of_ne heq]
      apply h.stored c'
      rcases List.mem_append.mp hmem with hst | hst
      · exact hst
      · cases List.mem_singleton.mp hst
        exact absurd rfl heq
  · intro a hno
    have hne : a ≠ C.target c :=
      (hno c (List.mem_append_right _ (List.mem_singleton_self _))).symm
    simp only [Copies.step, update_of_ne hne]
    exact h.kept a fun c' hst => hno c' (List.mem_append_left _ hst)

section

variable (hharmless : C.Harmless runs) (h : Copies.Ordered runs trace)
include hharmless h

theorem Copies.midway : C.Midway s trace (C.final s trace) := by
  suffices hall : ∀ past rest, trace = past ++ rest → C.Midway s past (C.final s past) from
    hall trace [] (List.append_nil _).symm
  intro past
  induction past using List.reverseRecOn with
  | nil =>
    intro rest _
    constructor
    · intro c hmem
      cases hmem
    · intro c hmem
      cases hmem
    · exact fun _ _ => rfl
  | append_singleton past e ih =>
    intro rest heq
    rw [List.append_assoc, List.singleton_append] at heq
    have hnow := ih _ heq
    have hpast : ∀ c, .store c ∈ past → runs c := fun c hst =>
      (h.stores c).mp (heq ▸ List.mem_append_left _ hst)
    rw [Copies.final, List.foldl_append]
    cases e with
    | load c =>
      apply hnow.load hharmless _ hpast
      exact h.loads c (heq ▸ List.mem_append_right _ List.mem_cons_self)
    | store c =>
      apply hnow.store hharmless _ hpast (h.loaded _ _ _ heq)
      exact (h.stores c).mp (heq ▸ List.mem_append_right _ List.mem_cons_self)

theorem Copies.final_target
    (hc : runs c) : (C.final s trace).mem (C.target c) = s.mem (C.source c) :=
  (Copies.midway hharmless h).stored c ((h.stores c).mpr hc)

theorem Copies.final_of_not_target
    {a : A} (hno : ∀ c, runs c → C.target c ≠ a) : (C.final s trace).mem a = s.mem a :=
  (Copies.midway hharmless h).kept a fun c hst => hno c ((h.stores c).mp hst)

end

end TorchComms.Foundation
