import Mathlib.Data.List.AList

/-! # Tables with an inverted index

Every item of a table carries a list of keys, and the index files the item's name under each of
them. The index is exact when a name is filed under a key if and only if an item of that name
carries the key. Taking out the items filed under one key keeps it exact when none of them carries
a second key, and else leaves names without an item behind. The index stays sharp as long as such a
name is not used again: it then still files every item under exactly the keys that it carries.
-/
namespace TorchComms.Foundation.InvertedIndex

variable {ι κ α : Type*}

/-- The name is in the list of the key. -/
def Filed [DecidableEq κ] (index : AList fun _ : κ => List ι) (k : κ) (i : ι) : Prop :=
  ∃ is, index.lookup k = some is ∧ i ∈ is

def file [DecidableEq κ] (index : AList fun _ : κ => List ι) (i : ι) (ks : List κ) :
    AList fun _ : κ => List ι :=
  ks.foldl (fun index k => index.insert k ((index.lookup k).getD [] ++ [i])) index

/-- Take the named items out of the table; a name without an item is passed over. -/
def take [DecidableEq ι] : List ι → (AList fun _ : ι => α) → List (ι × α) × AList fun _ : ι => α
  | [], items => ([], items)
  | i :: is, items =>
    match items.lookup i with
    | none => take is items
    | some a =>
      let (taken, rest) := take is (items.erase i)
      ((i, a) :: taken, rest)

section Filing

variable [DecidableEq κ] {index : AList fun _ : κ => List ι} {i j : ι} {k l : κ}

theorem filed_insert (is : List ι) : Filed (index.insert l is) k i ↔
    if k = l then i ∈ is else Filed index k i := by
  by_cases hk : k = l
  · rw [if_pos hk, hk]
    constructor
    · rintro ⟨js, hjs, hi⟩
      rw [AList.lookup_insert, Option.some.injEq] at hjs
      rw [hjs]
      exact hi
    · intro hi
      exact ⟨is, AList.lookup_insert _, hi⟩
  · rw [if_neg hk]
    unfold Filed
    rw [AList.lookup_insert_ne hk]

theorem filed_erase : Filed (index.erase l) k i ↔ k ≠ l ∧ Filed index k i := by
  by_cases hk : k = l
  · constructor
    · rintro ⟨is, his, _⟩
      rw [hk, AList.lookup_erase] at his
      cases his
    · rintro ⟨hne, _⟩
      exact absurd hk hne
  · unfold Filed
    rw [AList.lookup_erase_ne hk]
    exact (and_iff_right hk).symm

theorem mem_getD : i ∈ (index.lookup k).getD [] ↔ Filed index k i := by
  unfold Filed
  cases index.lookup k with
  | none => simp
  | some is => simp

theorem filed_file (ks : List κ) :
    Filed (file index i ks) k j ↔ Filed index k j ∨ j = i ∧ k ∈ ks := by
  induction ks generalizing index with
  | nil => simp [file]
  | cons l ks ih =>
    have hstep : file index i (l :: ks) =
        file (index.insert l ((index.lookup l).getD [] ++ [i])) i ks := rfl
    rw [hstep, ih, filed_insert, List.mem_cons]
    by_cases hk : k = l
    · rw [if_pos hk, List.mem_append, List.mem_singleton, hk, mem_getD]
      tauto
    · rw [if_neg hk]
      tauto

end Filing

section Taking

variable [DecidableEq ι] {items : AList fun _ : ι => α} {i : ι} {a : α} {is : List ι}

theorem take_cons_none (h : items.lookup i = none) : take (i :: is) items = take is items := by
  rw [take, h]

theorem take_cons_some (h : items.lookup i = some a) : take (i :: is) items =
    ((i, a) :: (take is (items.erase i)).1, (take is (items.erase i)).2) := by
  rw [take, h]

theorem lookup_take (is : List ι) :
    (take is items).2.lookup i = if i ∈ is then none else items.lookup i := by
  induction is generalizing items with
  | nil => simp [take]
  | cons j is ih =>
    by_cases hij : i = j
    · subst hij
      rw [if_pos List.mem_cons_self]
      cases hj : items.lookup i with
      | none =>
        rw [take_cons_none hj, ih, hj, ite_self]
      | some a =>
        rw [take_cons_some hj, ih, AList.lookup_erase, ite_self]
    · simp only [List.mem_cons, hij, false_or]
      cases hj : items.lookup j with
      | none => rw [take_cons_none hj, ih]
      | some a => rw [take_cons_some hj, ih, AList.lookup_erase_ne hij]

theorem mem_take (is : List ι) : (i, a) ∈ (take is items).1 ↔ i ∈ is ∧ items.lookup i = some a := by
  induction is generalizing items with
  | nil => simp [take]
  | cons j is ih =>
    cases hj : items.lookup j with
    | none =>
      rw [take_cons_none hj, ih, List.mem_cons]
      constructor
      · rintro ⟨hi, ha⟩
        exact ⟨Or.inr hi, ha⟩
      · rintro ⟨rfl | hi, ha⟩
        · rw [hj] at ha
          cases ha
        · exact ⟨hi, ha⟩
    | some b =>
      rw [take_cons_some hj, List.mem_cons, ih, List.mem_cons, Prod.mk.injEq]
      by_cases hij : i = j
      · subst hij
        rw [AList.lookup_erase, hj, Option.some.injEq]
        simp [eq_comm]
      · rw [AList.lookup_erase_ne hij]
        simp [hij]

end Taking

/-! ### The exact index -/

/-- A name is filed under a key exactly when its item carries the key. -/
def Exact [DecidableEq ι] [DecidableEq κ] (keysOf : α → List κ) (items : AList fun _ : ι => α)
    (index : AList fun _ : κ => List ι) : Prop :=
  ∀ k i, Filed index k i ↔ ∃ a, items.lookup i = some a ∧ k ∈ keysOf a

section Exactness

variable [DecidableEq ι] [DecidableEq κ] {keysOf : α → List κ} {items : AList fun _ : ι => α}
  {index : AList fun _ : κ => List ι} {i : ι} {a : α} {k : κ}

theorem exact_empty : Exact keysOf (∅ : AList fun _ : ι => α) (∅ : AList fun _ : κ => List ι) := by
  intro k i
  constructor
  · rintro ⟨is, his, _⟩
    cases his
  · rintro ⟨a, ha, _⟩
    cases ha

theorem exists_lookup_insert (P : α → Prop) (j : ι) :
    (∃ b, (items.insert i a).lookup j = some b ∧ P b) ↔
      if j = i then P a else ∃ b, items.lookup j = some b ∧ P b := by
  by_cases hj : j = i
  · subst hj
    rw [if_pos rfl, AList.lookup_insert]
    simp
  · rw [if_neg hj, AList.lookup_insert_ne hj]

section

variable (h : Exact keysOf items index)
include h

theorem Exact.add (hnew : items.lookup i = none) (a : α) :
    Exact keysOf (items.insert i a) (file index i (keysOf a)) := by
  intro k j
  rw [filed_file, h k j, exists_lookup_insert]
  by_cases hj : j = i
  · subst hj
    simp [hnew]
  · simp [hj]

theorem Exact.update (hi : items.lookup i = some a) {b : α}
    (hkeys : keysOf b = keysOf a) : Exact keysOf (items.insert i b) index := by
  intro k j
  rw [h k j, exists_lookup_insert]
  by_cases hj : j = i
  · subst hj
    simp [hi, hkeys]
  · simp [hj]

theorem Exact.add_bare (hnew : items.lookup i = none)
    (hbare : keysOf a = []) : Exact keysOf (items.insert i a) index := by
  have hadd := h.add hnew a
  rw [hbare] at hadd
  exact hadd

theorem Exact.erase_bare (hi : items.lookup i = some a)
    (hbare : keysOf a = []) : Exact keysOf (items.erase i) index := by
  intro k j
  rw [h k j]
  by_cases hj : j = i
  · subst hj
    simp [hi, hbare, AList.lookup_erase]
  · rw [AList.lookup_erase_ne hj]

end

end Exactness

/-! ### Dropping a key -/

/-- The names under a key are dropped with the key, and their items with them. -/
structure Dropped [DecidableEq ι] [DecidableEq κ] (items : AList fun _ : ι => α)
    (index : AList fun _ : κ => List ι) (k : κ) (items' : AList fun _ : ι => α)
    (index' : AList fun _ : κ => List ι) : Prop where
  filed : ∀ l i, Filed index' l i ↔ l ≠ k ∧ Filed index l i
  items : ∀ i a, items'.lookup i = some a ↔ items.lookup i = some a ∧ ¬ Filed index k i

section Dropping

variable [DecidableEq ι] [DecidableEq κ] {keysOf : α → List κ} {items items' : AList fun _ : ι => α}
  {index index' : AList fun _ : κ => List ι} {i : ι} {a : α} {k : κ}

theorem dropped_of_none (hk : index.lookup k = none) : Dropped items index k items index := by
  have hnone : ∀ i, ¬ Filed index k i := by
    rintro i ⟨is, his, _⟩
    rw [hk] at his
    cases his
  constructor
  · intro l i
    constructor
    · intro hl
      refine ⟨?_, hl⟩
      rintro rfl
      exact hnone i hl
    · exact And.right
  · intro i a
    exact (and_iff_left (hnone i)).symm

theorem dropped_take {is : List ι} (hk : index.lookup k = some is) :
    Dropped items index k (take is items).2 (index.erase k) where
  filed _ _ := filed_erase
  items i a := by
    have hfiled : Filed index k i ↔ i ∈ is := by
      unfold Filed
      rw [hk]
      simp
    rw [lookup_take, hfiled]
    by_cases hi : i ∈ is
    · rw [if_pos hi]
      simp [hi]
    · rw [if_neg hi]
      simp [hi]

theorem Exact.dropped (h : Exact keysOf items index) (hdrop : Dropped items index k items' index')
    (halone : ∀ i a, items.lookup i = some a → k ∈ keysOf a → ∀ l ∈ keysOf a, l = k) :
    Exact keysOf items' index' := by
  intro l i
  rw [hdrop.filed, h l i]
  constructor
  · rintro ⟨hne, a, ha, hl⟩
    refine ⟨a, (hdrop.items i a).mpr ⟨ha, ?_⟩, hl⟩
    intro hk
    rcases (h k i).mp hk with ⟨b, hb, hkb⟩
    rw [ha, Option.some.injEq] at hb
    subst hb
    exact hne (halone i a ha hkb l hl)
  · rintro ⟨a, ha, hl⟩
    rcases (hdrop.items i a).mp ha with ⟨hold, hnot⟩
    refine ⟨?_, a, hold, hl⟩
    rintro rfl
    exact hnot ((h l i).mpr ⟨a, hold, hl⟩)

/-! ### The sharp index -/

/-- The item of a name is filed under the keys that it carries. Names without an item may be left
in the index. -/
def Sharp (keysOf : α → List κ) (items : AList fun _ : ι => α)
    (index : AList fun _ : κ => List ι) : Prop :=
  ∀ i a, items.lookup i = some a → ∀ k, Filed index k i ↔ k ∈ keysOf a

theorem sharp_empty : Sharp keysOf (∅ : AList fun _ : ι => α) (∅ : AList fun _ : κ => List ι) := by
  intro i a ha
  cases ha

section

variable (h : Sharp keysOf items index)
include h

theorem Sharp.add (hstale : ∀ k, ¬ Filed index k i) (a : α) :
    Sharp keysOf (items.insert i a) (file index i (keysOf a)) := by
  intro j b hb k
  rw [filed_file]
  by_cases hj : j = i
  · subst hj
    rw [AList.lookup_insert, Option.some.injEq] at hb
    subst hb
    simp [hstale k]
  · rw [AList.lookup_insert_ne hj] at hb
    simp [h j b hb k, hj]

theorem Sharp.update (hi : items.lookup i = some a) {b : α}
    (hkeys : keysOf b = keysOf a) : Sharp keysOf (items.insert i b) index := by
  intro j c hc k
  by_cases hj : j = i
  · subst hj
    rw [AList.lookup_insert, Option.some.injEq] at hc
    subst hc
    rw [h j a hi k, hkeys]
  · rw [AList.lookup_insert_ne hj] at hc
    exact h j c hc k

theorem Sharp.dropped
    (hdrop : Dropped items index k items' index') : Sharp keysOf items' index' := by
  intro i a ha l
  rcases (hdrop.items i a).mp ha with ⟨hold, hnot⟩
  rw [hdrop.filed, h i a hold l]
  constructor
  · exact And.right
  · intro hl
    refine ⟨?_, hl⟩
    rintro rfl
    exact hnot ((h i a hold l).mpr hl)

end

end Dropping

end TorchComms.Foundation.InvertedIndex
