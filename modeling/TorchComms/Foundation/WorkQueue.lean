import Mathlib.Data.List.Basic

/-! # An in-order work queue with its history

Entries complete in the order in which they were posted. An entry that asks for no completion
retires together with the next one that does.
-/
namespace TorchComms.Foundation

structure WorkQueue (α : Type*) where
  posted : List α := []
  completed : ℕ := 0
  bound : completed ≤ posted.length := by simp
deriving DecidableEq

namespace WorkQueue

variable {α : Type*} {q : WorkQueue α} {a : α} {rest : List α}

def outstanding (q : WorkQueue α) : List α := q.posted.drop q.completed

def post (q : WorkQueue α) (a : α) : WorkQueue α where
  posted := q.posted ++ [a]
  completed := q.completed
  bound := by
    rw [List.length_append]
    exact Nat.le_add_right_of_le q.bound

@[simp] theorem posted_post (q : WorkQueue α) (a : α) : (q.post a).posted = q.posted ++ [a] := rfl

@[simp] theorem completed_post (q : WorkQueue α) (a : α) : (q.post a).completed = q.completed := rfl

@[simp] theorem outstanding_post (q : WorkQueue α) (a : α) :
    (q.post a).outstanding = q.outstanding ++ [a] :=
  List.drop_append_of_le_length q.bound

/-- The next entry whose completion is reported, with the queue after it. -/
def completeNext (signaled : α → Bool) (q : WorkQueue α) : Option (α × WorkQueue α) :=
  if h : q.completed + (q.outstanding.takeWhile fun a => !signaled a).length < q.posted.length then
    some (q.posted.get ⟨_, h⟩, ⟨q.posted, _, h⟩)
  else none

theorem completed_lt (h : q.outstanding = a :: rest) : q.completed < q.posted.length := by
  by_contra hge
  rw [outstanding, List.drop_eq_nil_of_le (Nat.le_of_not_lt hge)] at h
  cases h

/-- A signaled entry at the front is the next to be reported. -/
theorem completeNext_of_front (signaled : α → Bool) (h : q.outstanding = a :: rest)
    (ha : signaled a) :
    ∃ q', q.completeNext signaled = some (a, q') ∧ q'.outstanding = rest ∧
      q'.posted = q.posted ∧ q'.completed = q.completed + 1 := by
  have hlt := completed_lt h
  have hskip : (q.outstanding.takeWhile fun a => !signaled a) = [] := by
    simp [h, ha]
  rw [outstanding, List.drop_eq_getElem_cons hlt, List.cons.injEq] at h
  refine ⟨⟨q.posted, q.completed + 1, hlt⟩, ?_, h.2, rfl, rfl⟩
  simp [completeNext, hskip, hlt, h.1]

theorem getElem_takeWhile_length (p : α → Bool) :
    ∀ (l : List α) (h : (l.takeWhile p).length < l.length), p (l.get ⟨_, h⟩) = false
  | [], h => absurd h (Nat.lt_irrefl _)
  | a :: l, h => by
    cases ha : p a with
    | false => simp [ha]
    | true =>
      have hlt : (l.takeWhile p).length < l.length := by
        simpa [List.takeWhile_cons, ha] using h
      simpa [ha] using getElem_takeWhile_length p l hlt

variable {signaled : α → Bool} {q' : WorkQueue α}

theorem signaled_of_completeNext
    (h : q.completeNext signaled = some (a, q')) : signaled a := by
  rw [completeNext] at h
  split at h
  · rename_i hlt
    rw [Option.some.injEq, Prod.mk.injEq] at h
    have hlen : (q.outstanding.takeWhile fun a => !signaled a).length < q.outstanding.length := by
      rw [outstanding, List.length_drop]
      rw [outstanding] at hlt
      omega
    have hfront := getElem_takeWhile_length (fun a => !signaled a) q.outstanding hlen
    rw [← h.1]
    simpa [outstanding] using hfront
  · cases h

theorem mem_of_completeNext
    (h : q.completeNext signaled = some (a, q')) : a ∈ q.posted := by
  rw [completeNext] at h
  split at h
  · rw [Option.some.injEq, Prod.mk.injEq] at h
    rw [← h.1]
    exact List.get_mem ..
  · cases h

theorem completeNext_of_empty (signaled : α → Bool) (h : q.outstanding = []) :
    q.completeNext signaled = none := by
  have hge : q.posted.length ≤ q.completed := List.drop_eq_nil_iff.mp h
  simp [completeNext, h, Nat.not_lt_of_le hge]

end WorkQueue
end TorchComms.Foundation

/-! ## Channels that share one list

The entries of all channels lie in one list in the order in which they were put in. A channel
gives its oldest entry, the first of the list that is its own.
-/
namespace TorchComms.Foundation

variable {α β : Type*} {own : α → Bool} {l : List α} {a : α}

theorem exists_find? (own : α → Bool) (hmem : a ∈ l) (hown : own a = true) :
    ∃ b, l.find? own = some b ∧ own b = true := by
  rcases Option.isSome_iff_exists.mp (List.find?_isSome.mpr ⟨a, hmem, hown⟩) with ⟨b, hb⟩
  exact ⟨b, hb, List.find?_some hb⟩

/-- Where the oldest entry of a channel stands. -/
theorem split_of_find? (h : l.find? own = some a) :
    ∃ before after, l = before ++ a :: after ∧ (∀ b ∈ before, own b = false) ∧ own a = true ∧
      l.eraseP own = before ++ after := by
  rcases List.find?_eq_some_iff_append.mp h with ⟨hown, before, after, hl, hbefore⟩
  have hnone : ∀ b ∈ before, own b = false := by
    intro b hb
    simpa using hbefore b hb
  refine ⟨before, after, hl, hnone, hown, ?_⟩
  rw [hl, List.eraseP_append_right _ (by simpa using hnone), List.eraseP_cons_of_pos hown]

variable {keep : α → Bool}

section

variable (h : l.find? own = some a)
include h

theorem filter_eraseP_of_not (hkeep : keep a = false) :
    (l.eraseP own).filter keep = l.filter keep := by
  rcases split_of_find? h with ⟨before, after, hl, _, _, herase⟩
  rw [herase, hl, List.filter_append, List.filter_append, List.filter_cons_of_neg]
  simp [hkeep]

/-- The oldest entry of a channel is the first of any kind that only the channel carries. -/
theorem filter_eq_cons_of_find? (hkeep : keep a = true)
    (hsub : ∀ b ∈ l, keep b = true → own b = true) :
    l.filter keep = a :: (l.eraseP own).filter keep := by
  rcases split_of_find? h with ⟨before, after, hl, hbefore, _, herase⟩
  have hnone : before.filter keep = [] := by
    rw [List.filter_eq_nil_iff]
    intro b hb hkb
    have hown := hsub b (by simp [hl, hb]) hkb
    rw [hbefore b hb] at hown
    cases hown
  rw [herase, hl, List.filter_append, List.filter_append, hnone, List.filter_cons_of_pos hkeep]
  rfl

theorem countP_eraseP_of_not (hkeep : keep a = false) :
    (l.eraseP own).countP keep = l.countP keep := by
  rw [List.countP_eq_length_filter, List.countP_eq_length_filter, filter_eraseP_of_not h hkeep]

theorem countP_eraseP_of_mem (hkeep : keep a = true) :
    (l.eraseP own).countP keep + 1 = l.countP keep := by
  rcases split_of_find? h with ⟨before, after, hl, _, _, herase⟩
  rw [herase, hl, List.countP_append, List.countP_append, List.countP_cons_of_pos hkeep]
  omega

end

end TorchComms.Foundation
