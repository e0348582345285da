import Mathlib.Data.List.Basic

/-! # Two streams matched in order

Items of two streams arrive in any interleaving. The `k`-th item of one is paired with the
`k`-th item of the other as soon as both are there; until then it waits. At any moment only
one side waits.
-/
namespace TorchComms.Foundation

variable {α β γ : Type*}

/-- After the items `L` and `R`, `unl` and `unr` are waiting and `out` are the pairs made. -/
structure Rendezvous (f : α → β → γ) (L : List α) (R : List β) (unl : List α) (unr : List β)
    (out : List γ) : Prop where
  left : unl = L.drop R.length
  right : unr = R.drop L.length
  out : out = List.zipWith f L R

namespace Rendezvous

variable {f : α → β → γ} {L : List α} {R : List β} {unl : List α} {unr : List β} {out : List γ}

theorem nil (f : α → β → γ) : Rendezvous f [] [] [] [] [] := ⟨rfl, rfl, rfl⟩

theorem swap (h : Rendezvous f L R unl unr out) :
    Rendezvous (fun b a => f a b) R L unr unl out where
  left := h.right
  right := h.left
  out := by rw [h.out, List.zipWith_comm]

theorem exclusive (h : Rendezvous f L R unl unr out) : unl = [] ∨ unr = [] := by
  rw [h.left, h.right, List.drop_eq_nil_iff, List.drop_eq_nil_iff]
  exact Nat.le_total _ _

theorem push_wait (h : Rendezvous f L R unl [] out) (a : α) :
    Rendezvous f (L ++ [a]) R (unl ++ [a]) [] out := by
  have hlen : R.length ≤ L.length := List.drop_eq_nil_iff.mp h.right.symm
  refine ⟨?_, ?_, ?_⟩
  · rw [List.drop_append_of_le_length hlen, ← h.left]
  · rw [eq_comm, List.drop_eq_nil_iff, List.length_append]
    exact Nat.le_add_right_of_le hlen
  · rw [h.out]
    apply List.ext_getElem
    · simp
      omega
    · intro i hi _
      simp only [List.length_zipWith] at hi
      simp only [List.getElem_zipWith]
      rw [List.getElem_append_left]

variable {b : β}

theorem zipWith_concat (f : α → β → γ) (L : List α) {R : List β} (a : α)
    (hb : R[L.length]? = some b) : List.zipWith f (L ++ [a]) R = List.zipWith f L R ++ [f a b] := by
  induction L generalizing R with
  | nil =>
    cases R with
    | nil => simp at hb
    | cons r R =>
      simp only [List.length_nil, List.getElem?_cons_zero, Option.some.injEq] at hb
      simp [hb]
  | cons l L ih =>
    cases R with
    | nil => simp at hb
    | cons r R =>
      simp only [List.length_cons, List.getElem?_cons_succ] at hb
      simp [ih hb]

theorem waiting_left {a : α} (h : Rendezvous f L R (a :: unl) unr out) : L[R.length]? = some a := by
  have hhead := congrArg List.head? h.left
  simpa using hhead.symm

theorem waiting_right (h : Rendezvous f L R unl (b :: unr) out) : R[L.length]? = some b :=
  h.swap.waiting_left

theorem push_match (h : Rendezvous f L R unl (b :: unr) out) (a : α) :
    Rendezvous f (L ++ [a]) R unl unr (out ++ [f a b]) := by
  have hb := h.waiting_right
  rcases List.getElem?_eq_some_iff.mp hb with ⟨hlt, _⟩
  have hunl : unl = [] := by
    rw [h.left, List.drop_eq_nil_iff]
    exact Nat.le_of_lt hlt
  refine ⟨?_, ?_, ?_⟩
  · rw [hunl, eq_comm, List.drop_eq_nil_iff, List.length_append]
    exact hlt
  · rw [List.length_append, ← List.drop_drop, ← h.right]
    rfl
  · rw [zipWith_concat f L a hb, h.out]

theorem out_prefix (h : Rendezvous f L R unl unr out) (L' : List α) :
    out <+: List.zipWith f (L ++ L') R := by
  rw [h.out, List.prefix_iff_eq_take, List.take_zipWith, List.length_zipWith]
  apply List.ext_getElem
  · simp only [List.length_zipWith, List.length_take, List.length_append]
    omega
  · intro i hi _
    simp only [List.length_zipWith] at hi
    simp only [List.getElem_zipWith, List.getElem_take]
    rw [List.getElem_append_left]

end Rendezvous
end TorchComms.Foundation
