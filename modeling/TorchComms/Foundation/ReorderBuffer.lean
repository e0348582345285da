import Mathlib.Data.List.AList
import Mathlib.Data.List.Range
import Mathlib.Data.Nat.ModEq
import Mathlib.Data.Set.Insert

/-! # Reordering a numbered stream

Items carry their index modulo `m`. What arrives ahead of its turn is held until every item
before it has arrived. The held items and the next index are exact as long as no item is `m` or
more places ahead of the first missing one.
-/
namespace TorchComms.Foundation

/-- The next number expected and the items held, by number. -/
structure ReorderBuffer (β : Type*) where
  next : ℕ := 0
  held : AList fun _ : ℕ => β := ∅

namespace ReorderBuffer

variable {β : Type*} {m : ℕ} {f : ℕ → β} {S : Set ℕ} {p i : ℕ} {b : ReorderBuffer β}

/-- Release the items whose turn it is, one a round. -/
def drain (m : ℕ) : ℕ → ReorderBuffer β → List β × ReorderBuffer β
  | 0, b => ([], b)
  | fuel + 1, b =>
    match b.held.lookup b.next with
    | none => ([], b)
    | some v =>
      let r := drain m fuel ⟨(b.next + 1) % m, b.held.erase b.next⟩
      (v :: r.1, r.2)

/-- Take in the item `v` numbered `k`. Every round of the release uses up a held item. -/
def receive (m : ℕ) (k : ℕ) (v : β) (b : ReorderBuffer β) : List β × ReorderBuffer β :=
  drain m (b.held.insert k v).entries.length ⟨b.next, b.held.insert k v⟩

/-- The items `S` of the stream `f` have arrived and those before `p` have been released. -/
structure Holds (m : ℕ) (f : ℕ → β) (S : Set ℕ) (p : ℕ) (b : ReorderBuffer β) : Prop where
  below : ∀ j < p, j ∈ S
  window : ∀ j ∈ S, j < p + m
  next : b.next = p % m
  held : ∀ k v, b.held.lookup k = some v ↔ ∃ j ∈ S, p ≤ j ∧ j % m = k ∧ f j = v

theorem holds_init (m : ℕ) (f : ℕ → β) : Holds m f ∅ 0 {} where
  below := fun _ h => absurd h (Nat.not_lt_zero _)
  window := fun _ h => absurd h (Set.notMem_empty _)
  next := (Nat.zero_mod m).symm
  held := by simp

theorem Holds.congr {g : ℕ → β} {T : Set ℕ} (h : Holds m f S p b) (hset : ∀ j, j ∈ T ↔ j ∈ S)
    (heq : ∀ j ∈ S, g j = f j) : Holds m g T p b where
  below := fun j hj => (hset j).mpr (h.below j hj)
  window := fun j hj => h.window j ((hset j).mp hj)
  next := h.next
  held := by
    intro k v
    rw [h.held]
    constructor
    · rintro ⟨j, hj, hpj, hmod, hv⟩
      exact ⟨j, (hset j).mpr hj, hpj, hmod, (heq j hj).trans hv⟩
    · rintro ⟨j, hj, hpj, hmod, hv⟩
      have hjs := (hset j).mp hj
      exact ⟨j, hjs, hpj, hmod, (heq j hjs).symm.trans hv⟩

theorem eq_of_mod_eq {j : ℕ} (hi : p ≤ i) (hj : p ≤ j) (hi' : i < p + m) (hj' : j < p + m)
    (h : i % m = j % m) : i = j := by
  rcases Nat.le_total i j with hle | hle
  · have hdvd := (Nat.modEq_iff_dvd' hle).mp h
    have hzero := Nat.eq_zero_of_dvd_of_lt hdvd (by omega)
    omega
  · have hdvd := (Nat.modEq_iff_dvd' hle).mp h.symm
    have hzero := Nat.eq_zero_of_dvd_of_lt hdvd (by omega)
    omega

section

variable (h : Holds m f S p b)
include h

theorem Holds.lookup_next (hp : p ∈ S) : b.held.lookup b.next = some (f p) := by
  rw [h.held]
  exact ⟨p, hp, le_rfl, h.next.symm, rfl⟩

theorem Holds.mem_of_lookup {v : β} (hv : b.held.lookup b.next = some v) : p ∈ S ∧ v = f p := by
  rw [h.held] at hv
  rcases hv with ⟨j, hj, hpj, hmod, hfj⟩
  rw [h.next] at hmod
  have hwin := h.window j hj
  have hjp : j = p := eq_of_mod_eq hpj le_rfl hwin (by omega) hmod
  subst hjp
  exact ⟨hj, hfj.symm⟩

theorem Holds.release (hp : p ∈ S) :
    Holds m f S (p + 1) ⟨(b.next + 1) % m, b.held.erase b.next⟩ where
  below := by
    intro j hj
    rcases Nat.lt_succ_iff_lt_or_eq.mp hj with hlt | heq
    · exact h.below j hlt
    · rw [heq]
      exact hp
  window := by
    intro j hj
    have hwin := h.window j hj
    omega
  next := by
    rw [h.next]
    exact Nat.mod_add_mod p m 1
  held := by
    intro k v
    by_cases hk : k = b.next
    · subst hk
      rw [AList.lookup_erase]
      constructor
      · intro hnone
        cases hnone
      · rintro ⟨j, hj, hpj, hmod, _⟩
        rw [h.next] at hmod
        have hwin := h.window j hj
        have hjp : j = p := eq_of_mod_eq (by omega) le_rfl hwin (by omega) hmod
        omega
    · rw [AList.lookup_erase_ne hk, h.held]
      constructor
      · rintro ⟨j, hj, hpj, hmod, hfj⟩
        refine ⟨j, hj, ?_, hmod, hfj⟩
        by_contra hlt
        have hjp : j = p := by omega
        rw [← hmod, hjp, h.next] at hk
        exact hk rfl
      · rintro ⟨j, hj, hpj, hmod, hfj⟩
        exact ⟨j, hj, by omega, hmod, hfj⟩

/-- The release runs up to the first missing item. -/
theorem drain_spec {fuel : ℕ} (hfuel : b.held.entries.length ≤ fuel) :
    ∃ n, (drain m fuel b).1 = (List.range' p n).map f ∧
      Holds m f S (p + n) (drain m fuel b).2 ∧ p + n ∉ S := by
  induction fuel generalizing p b with
  | zero =>
    refine ⟨0, rfl, h, ?_⟩
    intro hp
    have hlook := h.lookup_next hp
    have hempty : b.held.entries = [] := List.length_eq_zero_iff.mp (Nat.le_zero.mp hfuel)
    rw [AList.lookup, hempty] at hlook
    cases hlook
  | succ fuel ih =>
    cases hlook : b.held.lookup b.next with
    | none =>
      refine ⟨0, ?_, ?_, ?_⟩
      · simp [drain, hlook]
      · simpa [drain, hlook] using h
      · intro hp
        rw [h.lookup_next hp] at hlook
        cases hlook
    | some v =>
      rcases h.mem_of_lookup hlook with ⟨hp, rfl⟩
      have hshrink : (b.held.erase b.next).entries.length ≤ fuel := by
        have hmem : b.next ∈ b.held.keys := AList.lookup_isSome.mp (by rw [hlook]; rfl)
        have hlen := List.length_erase_of_mem hmem
        rw [← AList.keys_erase] at hlen
        simp only [AList.keys, List.keys, List.length_map] at hlen
        omega
      rcases ih (h.release hp) hshrink with ⟨n, hout, hholds, hmiss⟩
      refine ⟨n + 1, ?_, ?_, ?_⟩
      · simp only [drain, hlook, hout, List.range'_succ, List.map_cons]
      · simpa only [drain, hlook, Nat.add_assoc, Nat.add_comm 1] using hholds
      · simpa only [Nat.add_assoc, Nat.add_comm 1] using hmiss

theorem Holds.pass (hp : p ∉ S) (hm : 0 < m) :
    Holds m f (insert p S) (p + 1) ⟨(b.next + 1) % m, b.held⟩ where
  below := by
    intro j hj
    rcases Nat.lt_succ_iff_lt_or_eq.mp hj with hlt | rfl
    · exact Set.mem_insert_of_mem p (h.below j hlt)
    · exact Set.mem_insert ..
  window := by
    intro j hj
    rcases Set.mem_insert_iff.mp hj with rfl | hj
    · omega
    · have hwin := h.window j hj
      omega
  next := by
    rw [h.next]
    exact Nat.mod_add_mod p m 1
  held := by
    intro k v
    rw [h.held]
    constructor
    · rintro ⟨j, hj, hpj, hrest⟩
      refine ⟨j, Set.mem_insert_of_mem p hj, Nat.lt_of_le_of_ne hpj ?_, hrest⟩
      rintro rfl
      exact hp hj
    · rintro ⟨j, hj, hpj, hrest⟩
      rcases Set.mem_insert_iff.mp hj with rfl | hj
      · exact absurd hpj (Nat.not_succ_le_self _)
      · exact ⟨j, hj, Nat.le_of_succ_le hpj, hrest⟩

/-- Taking in a new item of the window releases exactly the items up to the first one still
missing. -/
theorem receive_spec (hnew : i ∉ S) (hwin : i < p + m) :
    ∃ n, (receive m (i % m) (f i) b).1 = (List.range' p n).map f ∧
      Holds m f (insert i S) (p + n) (receive m (i % m) (f i) b).2 ∧ p + n ∉ insert i S := by
  have hpi : p ≤ i := by
    by_contra hlt
    exact hnew (h.below i (Nat.lt_of_not_le hlt))
  have hinserted : Holds m f (insert i S) p ⟨b.next, b.held.insert (i % m) (f i)⟩ :=
    { below := fun j hj => Set.mem_insert_of_mem i (h.below j hj)
      window := by
        intro j hj
        rcases Set.mem_insert_iff.mp hj with rfl | hj
        · exact hwin
        · exact h.window j hj
      next := h.next
      held := by
        intro k v
        by_cases hk : k = i % m
        · subst hk
          rw [AList.lookup_insert]
          constructor
          · intro hv
            exact ⟨i, Set.mem_insert i S, hpi, rfl, Option.some.inj hv⟩
          · rintro ⟨j, hj, hpj, hmod, hfj⟩
            have hjwin : j < p + m := by
              rcases Set.mem_insert_iff.mp hj with rfl | hj
              · exact hwin
              · exact h.window j hj
            rw [← eq_of_mod_eq hpj hpi hjwin hwin hmod, hfj]
        · rw [AList.lookup_insert_ne hk, h.held]
          constructor
          · rintro ⟨j, hj, hrest⟩
            exact ⟨j, Set.mem_insert_of_mem i hj, hrest⟩
          · rintro ⟨j, hj, hpj, hmod, hfj⟩
            rcases Set.mem_insert_iff.mp hj with rfl | hj
            · exact absurd hmod.symm hk
            · exact ⟨j, hj, hpj, hmod, hfj⟩ }
  exact drain_spec hinserted le_rfl

end

end ReorderBuffer
end TorchComms.Foundation
