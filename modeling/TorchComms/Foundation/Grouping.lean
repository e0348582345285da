import Mathlib.Data.List.AList
import Mathlib.Data.List.Infix
import Mathlib.Data.List.Perm.Lattice

/-! # Grouping numbered items by key

Items `0, 1, …` come one by one; some of them carry a key. Keys are numbered in the order in which
they first occur, and the items of a key form a list in the order in which they came.
-/
namespace TorchComms.Foundation.Grouping

variable {κ : Type*} [DecidableEq κ] {f : ℕ → Option κ} {k : κ} {i j n : ℕ}

/-- The keys of the items before `n`, in the order of their first occurrence. -/
def keys (f : ℕ → Option κ) : ℕ → List κ
  | 0 => []
  | n + 1 =>
    match f n with
    | none => keys f n
    | some k => if k ∈ keys f n then keys f n else keys f n ++ [k]

/-- The items before `n` that have the key `k`. -/
def members (f : ℕ → Option κ) (n : ℕ) (k : κ) : List ℕ := (List.range n).filter fun i => f i = some k

theorem keys_none (h : f n = none) : keys f (n + 1) = keys f n := by
  rw [keys, h]

theorem keys_old (h : f n = some k) (hk : k ∈ keys f n) : keys f (n + 1) = keys f n := by
  rw [keys, h]
  exact if_pos hk

theorem keys_new (h : f n = some k) (hk : k ∉ keys f n) : keys f (n + 1) = keys f n ++ [k] := by
  rw [keys, h]
  exact if_neg hk

theorem mem_keys : k ∈ keys f n ↔ ∃ i < n, f i = some k := by
  induction n with
  | zero => simp [keys]
  | succ n ih =>
    have hsplit : (∃ i < n + 1, f i = some k) ↔ (∃ i < n, f i = some k) ∨ f n = some k := by
      constructor
      · rintro ⟨i, hi, hf⟩
        rcases Nat.lt_succ_iff_lt_or_eq.mp hi with hlt | rfl
        · exact Or.inl ⟨i, hlt, hf⟩
        · exact Or.inr hf
      · rintro (⟨i, hi, hf⟩ | hf)
        · exact ⟨i, Nat.lt_succ_of_lt hi, hf⟩
        · exact ⟨n, Nat.lt_succ_self n, hf⟩
    rw [hsplit, ← ih]
    cases hf : f n with
    | none => simp [keys_none hf]
    | some l =>
      by_cases hl : l ∈ keys f n
      · rw [keys_old hf hl, Option.some.injEq]
        constructor
        · exact Or.inl
        · rintro (h | rfl)
          · exact h
          · exact hl
      · rw [keys_new hf hl, List.mem_append, List.mem_singleton, Option.some.injEq, eq_comm (a := l)]

theorem keys_nodup (f : ℕ → Option κ) (n : ℕ) : (keys f n).Nodup := by
  induction n with
  | zero => exact List.nodup_nil
  | succ n ih =>
    cases hf : f n with
    | none => rw [keys_none hf]; exact ih
    | some k =>
      by_cases hk : k ∈ keys f n
      · rw [keys_old hf hk]
        exact ih
      · rw [keys_new hf hk]
        apply List.Nodup.append ih (List.nodup_singleton k)
        intro l hl hlk
        rw [List.mem_singleton.mp hlk] at hl
        exact hk hl

theorem prefix_keys (f : ℕ → Option κ) (h : i ≤ n) : keys f i <+: keys f n := by
  induction h with
  | refl => exact List.prefix_rfl
  | @step n _ ih =>
    apply ih.trans
    cases hf : f n with
    | none =>
      rw [keys_none hf]
    | some k =>
      by_cases hk : k ∈ keys f n
      · rw [keys_old hf hk]
      · rw [keys_new hf hk]
        exact List.prefix_append _ _

theorem keys_pos (h : f i = some k) : 0 < (keys f (i + 1)).length :=
  List.length_pos_of_mem (mem_keys.mpr ⟨i, Nat.lt_succ_self i, h⟩)

theorem mem_members : i ∈ members f n k ↔ i < n ∧ f i = some k := by
  simp [members]

theorem members_succ_same (h : f n = some k) : members f (n + 1) k = members f n k ++ [n] := by
  simp [members, List.range_succ, List.filter_append, h]

theorem members_succ_ne (h : f n ≠ some k) : members f (n + 1) k = members f n k := by
  simp [members, List.range_succ, List.filter_append, h]

theorem members_eq_nil (h : k ∉ keys f n) : members f n k = [] := by
  rw [List.eq_nil_iff_forall_not_mem]
  intro i hi
  exact h (mem_keys.mpr ⟨i, mem_members.mp hi⟩)

theorem prefix_members (f : ℕ → Option κ) (k : κ) (h : i ≤ n) :
    members f i k <+: members f n k := by
  induction h with
  | refl => exact List.prefix_rfl
  | @step n _ ih =>
    apply ih.trans
    by_cases hf : f n = some k
    · rw [members_succ_same hf]
      exact List.prefix_append _ _
    · rw [members_succ_ne hf]

theorem getElem?_members (h : f i = some k) (hi : i < n) :
    (members f n k)[(members f i k).length]? = some i := by
  rcases prefix_members f k hi with ⟨t, ht⟩
  rw [← ht, members_succ_same h, List.append_assoc,
    List.getElem?_append_right (Nat.le_refl _), Nat.sub_self]
  rfl

theorem groups_perm (f : ℕ → Option κ) (n : ℕ) :
    ((keys f n).flatMap (members f n)).Perm ((List.range n).filter fun i => (f i).isSome) := by
  rw [List.perm_ext_iff_of_nodup]
  · intro i
    simp only [List.mem_flatMap, mem_members, List.mem_filter, List.mem_range]
    constructor
    · rintro ⟨k, _, hi, hf⟩
      exact ⟨hi, by rw [hf]; rfl⟩
    · rintro ⟨hi, hf⟩
      rcases Option.isSome_iff_exists.mp hf with ⟨k, hk⟩
      exact ⟨k, mem_keys.mpr ⟨i, hi, hk⟩, hi, hk⟩
  · rw [List.nodup_flatMap]
    refine ⟨fun k _ => List.nodup_range.filter _, ?_⟩
    apply List.Nodup.pairwise_of_forall_ne (keys_nodup f n)
    intro k _ l _ hkl i hi hi'
    have hk := (mem_members.mp hi).2
    rw [(mem_members.mp hi').2] at hk
    exact hkl (Option.some.inj hk).symm
  · exact List.nodup_range.filter _

/-! ### Maps of the keys -/

theorem length_insert {β : Type*} (m : AList fun _ : κ => β) (k : κ) (v : β) :
    (m.insert k v).entries.length =
      if k ∈ m then m.entries.length else m.entries.length + 1 := by
  have hkeys : ∀ m : AList fun _ : κ => β, m.entries.length = m.keys.length := by
    intro m
    simp [AList.keys, List.keys]
  rw [hkeys, hkeys, AList.keys_insert, List.length_cons]
  by_cases hk : k ∈ m
  · rw [if_pos hk, List.length_erase_of_mem hk]
    have hpos := List.length_pos_of_mem (show k ∈ m.keys from hk)
    omega
  · rw [if_neg hk, List.erase_of_not_mem hk]

/-! ### Numbers of keys while the items come -/

/-- The items of a key come one after the other. -/
def Contiguous (f : ℕ → Option κ) (n : ℕ) : Prop :=
  ∀ k < n, ∀ j < k, ∀ i < j, f i = f k → f j = f i

theorem length_keys_succ (h : f i = some k) :
    (keys f (i + 1)).length = (keys f i).length + if k ∈ keys f i then 0 else 1 := by
  by_cases hk : k ∈ keys f i
  · rw [keys_old h hk, if_pos hk, Nat.add_zero]
  · rw [keys_new h hk, if_neg hk, List.length_append, List.length_singleton]

theorem length_keys_mono (f : ℕ → Option κ) (h : i ≤ n) : (keys f i).length ≤ (keys f n).length :=
  (prefix_keys f h).length_le

/-- Counting the keys seen tells the keys of all items apart just when the items of every key come
one after the other. -/
theorem contiguous_iff (hsome : ∀ i < n, (f i).isSome) :
    Contiguous f n ↔ ∀ a < n, ∀ b < n,
      ((keys f (a + 1)).length = (keys f (b + 1)).length ↔ f a = f b) := by
  constructor
  · intro h
    have hle : ∀ b < n, ∀ a ≤ b,
        ((keys f (a + 1)).length = (keys f (b + 1)).length ↔ f a = f b) := by
      intro b
      induction b with
      | zero =>
        intro _ a ha
        rw [Nat.le_zero.mp ha]
        exact ⟨fun _ => rfl, fun _ => rfl⟩
      | succ b ih =>
        intro hb a ha
        rcases Nat.lt_or_eq_of_le ha with hlt | rfl
        · have hab : a ≤ b := Nat.le_of_lt_succ hlt
          rcases Option.isSome_iff_exists.mp (hsome (b + 1) hb) with ⟨k, hk⟩
          have hstep := length_keys_succ hk
          have hmono := length_keys_mono f (by omega : a + 1 ≤ b + 1)
          by_cases hold : k ∈ keys f (b + 1)
          · rw [if_pos hold, Nat.add_zero] at hstep
            rcases mem_keys.mp hold with ⟨i, hi, hik⟩
            have hprev : f b = f (b + 1) := by
              rcases Nat.lt_or_eq_of_le (Nat.le_of_lt_succ hi) with hib | rfl
              · rw [h (b + 1) hb b (Nat.lt_succ_self b) i hib (hik.trans hk.symm), hik, hk]
              · rw [hik, hk]
            rw [hstep, ← hprev]
            exact ih (Nat.lt_of_succ_lt hb) a hab
          · rw [if_neg hold] at hstep
            constructor
            · intro heq
              omega
            · intro heq
              exact absurd (mem_keys.mpr ⟨a, hlt, heq.trans hk⟩) hold
        · exact ⟨fun _ => rfl, fun _ => rfl⟩
    intro a ha b hb
    rcases Nat.le_total a b with hab | hab
    · exact hle b hb a hab
    · rw [eq_comm, hle a ha b hab, eq_comm]
  · intro h k hk j hjk i hij hik
    have hlast := (h i (by omega) k hk).mpr hik
    have hij' := length_keys_mono f (by omega : i + 1 ≤ j + 1)
    have hjk' := length_keys_mono f (by omega : j + 1 ≤ k + 1)
    exact (h j (by omega) i (by omega)).mp (by omega)

end TorchComms.Foundation.Grouping
