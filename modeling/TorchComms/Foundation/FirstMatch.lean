import Mathlib.Data.List.Nodup

/-! # The first match of each pattern

Each pattern of a list takes the first element that it matches. The elements taken are those that
some pattern matches, each taken once, when every matched element is the first match of exactly one
pattern.
-/
namespace TorchComms.Foundation

variable {α β : Type*} (p : α → β → Bool) {xs : List α} {ys : List β} {x : α} {y : β}

/-- The patterns that match anything, with their first matches. -/
def firstMatches (xs : List α) (ys : List β) : List (α × β) :=
  xs.filterMap fun x => (ys.find? (p x)).map (Prod.mk x)

theorem mem_firstMatches : (x, y) ∈ firstMatches p xs ys ↔ x ∈ xs ∧ ys.find? (p x) = some y := by
  unfold firstMatches
  rw [List.mem_filterMap]
  constructor
  · rintro ⟨x', hx', hfind⟩
    rw [Option.map_eq_some_iff] at hfind
    rcases hfind with ⟨y', hy', heq⟩
    cases heq
    exact ⟨hx', hy'⟩
  · rintro ⟨hx, hy⟩
    exact ⟨x, hx, by rw [hy]; rfl⟩

theorem firstMatches_nodup (hxs : xs.Nodup) : (firstMatches p xs ys).Nodup := by
  apply List.Nodup.filterMap _ hxs
  intro x x' z hz hz'
  rw [Option.mem_def, Option.map_eq_some_iff] at hz hz'
  rcases hz with ⟨y, -, rfl⟩
  rcases hz' with ⟨y', -, heq⟩
  exact (congrArg Prod.fst heq).symm

theorem firstMatches_sound (h : (x, y) ∈ firstMatches p xs ys) : x ∈ xs ∧ y ∈ ys ∧ p x y = true := by
  rw [mem_firstMatches] at h
  exact ⟨h.1, List.mem_of_find?_eq_some h.2, List.find?_some h.2⟩

theorem exists_of_mem_snd (h : y ∈ (firstMatches p xs ys).map Prod.snd) :
    ∃ x, (x, y) ∈ firstMatches p xs ys := by
  rcases List.mem_map.mp h with ⟨⟨x, y'⟩, hmem, rfl⟩
  exact ⟨x, hmem⟩

/-- Every matched element is taken once when each is the first match of exactly one pattern. -/
theorem firstMatches_exact_iff (hxs : xs.Nodup) :
    ((firstMatches p xs ys).map Prod.snd).Nodup ∧
        (∀ y, y ∈ (firstMatches p xs ys).map Prod.snd ↔ y ∈ ys ∧ ∃ x ∈ xs, p x y = true) ↔
      ∀ y ∈ ys, (∃ x ∈ xs, p x y = true) → ∃! x, x ∈ xs ∧ ys.find? (p x) = some y := by
  constructor
  · rintro ⟨hnodup, hmem⟩ y hy hmatched
    rcases exists_of_mem_snd p ((hmem y).mpr ⟨hy, hmatched⟩) with ⟨x, hx⟩
    refine ⟨x, (mem_firstMatches p).mp hx, fun x' hx' => ?_⟩
    have heq := List.inj_on_of_nodup_map hnodup ((mem_firstMatches p).mpr hx') hx rfl
    exact congrArg Prod.fst heq
  · intro hunique
    constructor
    · apply List.Nodup.map_on _ (firstMatches_nodup p hxs)
      rintro ⟨x, y⟩ hx ⟨x', y'⟩ hx' heq
      cases heq
      rcases firstMatches_sound p hx with ⟨hxs', hys, hp⟩
      rcases hunique y hys ⟨x, hxs', hp⟩ with ⟨x₀, -, honly⟩
      rw [honly x ((mem_firstMatches p).mp hx), honly x' ((mem_firstMatches p).mp hx')]
    · intro y
      constructor
      · intro hy
        rcases exists_of_mem_snd p hy with ⟨x, hx⟩
        rcases firstMatches_sound p hx with ⟨hxs', hys, hp⟩
        exact ⟨hys, x, hxs', hp⟩
      · rintro ⟨hys, hmatched⟩
        rcases hunique y hys hmatched with ⟨x, hx, -⟩
        exact List.mem_map.mpr ⟨(x, y), (mem_firstMatches p).mpr hx, rfl⟩

variable {q : β → Bool}

theorem find?_eq_some_of_unique (hy : y ∈ ys) (hq : q y = true)
    (honly : ∀ y' ∈ ys, q y' = true → y' = y) : ys.find? q = some y := by
  cases hfind : ys.find? q with
  | none => exact absurd hq (List.find?_eq_none.mp hfind y hy)
  | some y' => rw [honly y' (List.mem_of_find?_eq_some hfind) (List.find?_some hfind)]

theorem find?_eq_get_iff (hys : ys.Nodup) (i : Fin ys.length) :
    ys.find? q = some (ys.get i) ↔ q (ys.get i) = true ∧ ∀ j < i, q (ys.get j) = false := by
  rw [List.find?_eq_some_iff_getElem]
  constructor
  · rintro ⟨hq, k, hk, heq, hbefore⟩
    have hki : (⟨k, hk⟩ : Fin ys.length) = i := List.nodup_iff_injective_get.mp hys heq
    refine ⟨hq, fun j hj => ?_⟩
    rw [← hki] at hj
    exact Bool.not_eq_true' _ ▸ hbefore j hj
  · rintro ⟨hq, hbefore⟩
    refine ⟨hq, i, i.isLt, rfl, fun j hj => ?_⟩
    rw [Bool.not_eq_true']
    exact hbefore ⟨j, Nat.lt_trans hj i.isLt⟩ hj

theorem firstMatches_singleton (x : α) (ys : List β) :
    (firstMatches p [x] ys).map Prod.snd = (ys.filter (p x)).head?.toList := by
  rw [List.head?_filter]
  unfold firstMatches
  cases hfind : ys.find? (p x) with
  | none => simp [hfind]
  | some y => simp [hfind]

end TorchComms.Foundation
