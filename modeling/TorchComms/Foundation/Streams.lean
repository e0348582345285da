import Mathlib.Data.List.Basic

/-! # Streams and events

A stream is a FIFO queue of kernels, of records of events and of waits for them. A kernel covered by
the first items of a queue has finished before the items behind them start, through the queue itself
or through waits for records in other queues.
-/
namespace TorchComms.Foundation

open Function

variable {σ κ : Type*}

/-- The records are numbered. What a stream is given besides is of no interest here. -/
inductive StreamItem (κ : Type*)
  | kernel (k : κ)
  | record (n : ℕ)
  | wait (n : ℕ)
  | other

structure Device (σ κ : Type*) where
  queue : σ → List (StreamItem κ)
  started : κ → Bool
  finished : κ → Bool

namespace Device

def push [DecidableEq σ] (d : Device σ κ) (v : σ) (item : StreamItem κ) : Device σ κ :=
  { d with queue := update d.queue v (d.queue v ++ [item]) }

variable [DecidableEq σ] [DecidableEq κ]

/-- The head of a queue starts, finishes or is executed. A wait passes once the record that it waits
for is no longer queued. -/
inductive Step (d : Device σ κ) : Device σ κ → Prop
  | start (v : σ) (k : κ) (rest : List (StreamItem κ)) (hq : d.queue v = .kernel k :: rest) :
      Step d { d with started := update d.started k true }
  | finish (v : σ) (k : κ) (rest : List (StreamItem κ)) (hq : d.queue v = .kernel k :: rest)
      (hk : d.started k = true) :
      Step d { d with queue := update d.queue v rest, finished := update d.finished k true }
  | record (v : σ) (n : ℕ) (rest : List (StreamItem κ)) (hq : d.queue v = .record n :: rest) :
      Step d { d with queue := update d.queue v rest }
  | wait (v : σ) (n : ℕ) (rest : List (StreamItem κ)) (hq : d.queue v = .wait n :: rest)
      (hn : ∀ w, .record n ∉ d.queue w) : Step d { d with queue := update d.queue v rest }
  | other (v : σ) (rest : List (StreamItem κ)) (hq : d.queue v = .other :: rest) :
      Step d { d with queue := update d.queue v rest }

end Device

/-- When all items of the list have been executed, so has the kernel: it is one of them, or one of
them waits for a record that the kernel is covered by. -/
inductive Covers (queue : σ → List (StreamItem κ)) (k : κ) : List (StreamItem κ) → Prop
  | here {l : List (StreamItem κ)} (h : .kernel k ∈ l) : Covers queue k l
  | wait {l before after : List (StreamItem κ)} {n : ℕ} {v : σ} (h : .wait n ∈ l)
      (hq : queue v = before ++ .record n :: after) (hk : Covers queue k before) : Covers queue k l

namespace Covers

variable {queue : σ → List (StreamItem κ)} {k : κ} {l l' : List (StreamItem κ)}

theorem not_nil : ¬Covers queue k [] := by
  rintro (h | ⟨h, -, -⟩) <;> cases h

theorem mono (h : Covers queue k l) (hl : l ⊆ l') : Covers queue k l' := by
  cases h with
  | here h => exact .here (hl h)
  | wait h hq hk => exact .wait (hl h) hq hk

variable [DecidableEq σ]

theorem push (h : Covers queue k l) (v : σ) (item : StreamItem κ) :
    Covers (update queue v (queue v ++ [item])) k l := by
  induction h with
  | here h => exact .here h
  | @wait l before after n w h hq hk ih =>
    by_cases hw : w = v
    · subst hw
      have hq' : update queue w (queue w ++ [item]) w =
          before ++ .record n :: (after ++ [item]) := by simp [hq]
      exact .wait h hq' ih
    · exact .wait (v := w) h (by simpa [hw] using hq) ih

/-- The head of a queue is taken off. What was covered stays so, also by the items behind a head
that is not the kernel, and not a wait that still holds. -/
theorem pop (h : Covers queue k l) {v : σ} {x : StreamItem κ} {rest : List (StreamItem κ)}
    (hv : queue v = x :: rest) (hk : x ≠ .kernel k)
    (hwait : ∀ n, x = .wait n → ∀ w, .record n ∉ queue w) :
    Covers (update queue v rest) k l ∧
      ∀ l', l = x :: l' → Covers (update queue v rest) k l' := by
  induction h with
  | here h =>
    refine ⟨.here h, ?_⟩
    rintro l' rfl
    rcases List.mem_cons.1 h with h | h
    · exact absurd h.symm hk
    · exact .here h
  | @wait l before after n w h hq hcov ih =>
    -- the record that is waited for stays in its queue, with what covers the kernel before it
    have hsplit : ∀ l', .wait n ∈ l' → Covers (update queue v rest) k l' := by
      intro l' h'
      by_cases hw : w = v
      · subst hw
        rw [hv] at hq
        cases before with
        | nil => exact absurd ih.1 not_nil
        | cons y before =>
          simp only [List.cons_append, List.cons.injEq] at hq
          obtain ⟨rfl, hrest⟩ := hq
          exact .wait (v := w) h' (by simpa using hrest) (ih.2 before rfl)
      · exact .wait (v := w) h' (by simpa [hw] using hq) ih.1
    refine ⟨hsplit l h, ?_⟩
    rintro l' rfl
    rcases List.mem_cons.1 h with h | h
    · exact absurd (by simp [hq]) (hwait n h.symm w)
    · exact hsplit l' h

end Covers

namespace Device

variable {d d' : Device σ κ} {k : κ} {l : List (StreamItem κ)}

/-- The kernel has finished, or has before the items behind the list start. -/
def Covered (d : Device σ κ) (k : κ) (l : List (StreamItem κ)) : Prop :=
  d.finished k = true ∨ Covers d.queue k l

theorem Covered.mono {l' : List (StreamItem κ)} (h : d.Covered k l) (hl : l ⊆ l') :
    d.Covered k l' :=
  h.imp_right fun hc => hc.mono hl

theorem finished_of_covered_nil (h : d.Covered k []) : d.finished k = true :=
  h.resolve_right Covers.not_nil

/-- The queues make each kernel start after those that are to come before it. -/
structure Ordered (d : Device σ κ) (before : κ → κ → Prop) : Prop where
  queued : ∀ v k l l', d.queue v = l ++ .kernel k :: l' → ∀ j, before j k → d.Covered j l
  started : ∀ k, d.started k = true → ∀ j, before j k → d.finished j = true

theorem Ordered.mono {before before' : κ → κ → Prop} (h : d.Ordered before)
    (himp : ∀ j k, ((∃ v, .kernel k ∈ d.queue v) ∨ d.started k = true) → before' j k →
      before j k) : d.Ordered before' where
  queued := fun v k l l' hq j hj =>
    h.queued v k l l' hq j (himp j k (.inl ⟨v, by simp [hq]⟩) hj)
  started := fun k hk j hj => h.started k hk j (himp j k (.inr hk) hj)

variable [DecidableEq σ]

@[simp] theorem push_queue_self (d : Device σ κ) (v : σ) (item : StreamItem κ) :
    (d.push v item).queue v = d.queue v ++ [item] := by
  simp [push]

theorem push_queue_of_ne {v w : σ} (h : w ≠ v) (d : Device σ κ) (item : StreamItem κ) :
    (d.push v item).queue w = d.queue w := by
  simp [push, h]

theorem Covered.push (h : d.Covered k l) (v : σ) (item : StreamItem κ) :
    (d.push v item).Covered k l :=
  h.imp_right fun hc => hc.push v item

theorem Covered.push_queue {w : σ} (h : d.Covered k (d.queue w)) (v : σ) (item : StreamItem κ) :
    (d.push v item).Covered k ((d.push v item).queue w) := by
  refine (h.push v item).mono ?_
  by_cases hw : w = v
  · subst hw
    simp
  · rw [push_queue_of_ne hw]
    exact List.Subset.refl _

theorem Ordered.push {before : κ → κ → Prop} (h : d.Ordered before) (v : σ) (item : StreamItem κ)
    (hitem : ∀ k, item = .kernel k → ∀ j, before j k → d.Covered j (d.queue v)) :
    (d.push v item).Ordered before where
  queued := by
    intro w k l l' hq j hj
    by_cases hw : w = v
    · subst hw
      rw [push_queue_self] at hq
      rcases List.eq_nil_or_concat l' with rfl | ⟨m, x, rfl⟩
      · obtain ⟨hl, hx⟩ := List.append_inj' hq rfl
        rw [List.singleton_inj] at hx
        exact hl ▸ (hitem k hx j hj).push w item
      · rw [List.concat_eq_append, ← List.cons_append, ← List.append_assoc] at hq
        have hl := (List.append_inj' hq rfl).1
        exact (h.queued w k l m hl j hj).push w item
    · rw [push_queue_of_ne hw] at hq
      exact (h.queued w k l l' hq j hj).push v item
  started := h.started

/-- One stream waits for what another has been given so far. -/
theorem Covered.wait {v w : σ} (h : d.Covered k (d.queue v)) (n : ℕ) :
    ((d.push v (.record n)).push w (.wait n)).Covered k
      (((d.push v (.record n)).push w (.wait n)).queue w) := by
  have hbefore : (d.push v (.record n)).Covered k (d.queue v) := h.push v _
  have hafter := hbefore.push w (.wait n)
  refine hafter.imp_right ?_
  intro hc
  by_cases hvw : v = w
  · subst hvw
    have hq : ((d.push v (.record n)).push v (.wait n)).queue v =
        d.queue v ++ .record n :: [.wait n] := by simp
    exact .wait (n := n) (by simp) hq hc
  · have hq : ((d.push v (.record n)).push w (.wait n)).queue v = d.queue v ++ .record n :: [] := by
      simp [push_queue_of_ne hvw]
    exact .wait (n := n) (by simp) hq hc

variable {v : σ}

/-- Taking the head off a queue, unless it is the kernel. -/
theorem Covered.pop (h : d.Covered k l) {x : StreamItem κ} {rest : List (StreamItem κ)}
    (hv : d.queue v = x :: rest) (hk : x ≠ .kernel k)
    (hwait : ∀ n, x = .wait n → ∀ w, .record n ∉ d.queue w) :
    { d with queue := update d.queue v rest }.Covered k l ∧
      ∀ l', l = x :: l' → { d with queue := update d.queue v rest }.Covered k l' := by
  rcases h with h | h
  · exact ⟨.inl h, fun _ _ => .inl h⟩
  · obtain ⟨hl, hrest⟩ := h.pop hv hk hwait
    exact ⟨.inr hl, fun l' hl' => .inr (hrest l' hl')⟩

variable [DecidableEq κ]

/-- A step takes nothing off any queue, or the head of one. The kernel of a head that is taken off
has finished. -/
theorem Step.cases_queue (h : d.Step d') :
    d'.queue = d.queue ∧ d'.finished = d.finished ∨
    ∃ v x rest, d.queue v = x :: rest ∧ d'.queue = update d.queue v rest ∧
      (∀ n, x = .wait n → ∀ w, .record n ∉ d.queue w) ∧
      (∀ k, d.finished k = true → d'.finished k = true) ∧
      ∀ k, x = .kernel k → d'.finished k = true := by
  cases h with
  | start v k rest hq => exact .inl ⟨rfl, rfl⟩
  | finish v k rest hq hk =>
    refine .inr ⟨v, _, rest, hq, rfl, nofun, ?_, ?_⟩
    · intro j hj
      by_cases hjk : j = k <;> simp [hjk, hj]
    · rintro j hj
      cases hj
      simp
  | record v n rest hq => exact .inr ⟨v, _, rest, hq, rfl, nofun, fun _ h => h, nofun⟩
  | wait v n rest hq hn =>
    refine .inr ⟨v, _, rest, hq, rfl, ?_, fun _ h => h, nofun⟩
    rintro m hm
    cases hm
    exact hn
  | other v rest hq => exact .inr ⟨v, _, rest, hq, rfl, nofun, fun _ h => h, nofun⟩

/-- What comes behind a queue's items stays behind the kernels that they cover. -/
theorem Covered.step_before (hstep : d.Step d') {after : List (StreamItem κ)}
    (hafter : d'.queue v = l ++ after) (hcov : ∀ before, d.queue v = before ++ after →
      d.Covered k before) : d'.Covered k l := by
  rcases hstep.cases_queue with ⟨hqueue, hfin⟩ | ⟨w, x, rest, hw, hqueue, hwait, hfin, hx⟩
  · rw [hqueue] at hafter
    simpa only [Covered, hqueue, hfin] using hcov l hafter
  · by_cases hk : x = .kernel k
    · exact .inl (hx k hk)
    · rw [hqueue] at hafter
      have hpopped : { d with queue := update d.queue w rest }.Covered k l := by
        by_cases hvw : v = w
        · subst hvw
          rw [update_self] at hafter
          have hbefore := hcov (x :: l) (by rw [hw, hafter, List.cons_append])
          exact (hbefore.pop hw hk hwait).2 l rfl
        · rw [update_of_ne hvw] at hafter
          exact ((hcov l hafter).pop hw hk hwait).1
      refine hpopped.imp (hfin k) ?_
      intro hc
      rw [hqueue]
      exact hc

theorem Covered.step_queue (hstep : d.Step d') (h : d.Covered k (d.queue v)) :
    d'.Covered k (d'.queue v) := by
  apply Covered.step_before (v := v) hstep (List.append_nil _).symm
  intro before hb
  rw [List.append_nil] at hb
  exact hb ▸ h

namespace Ordered

variable {before : κ → κ → Prop}

theorem step (h : d.Ordered before) (hstep : d.Step d') : d'.Ordered before where
  queued := by
    intro v k l l' hq j hj
    apply Covered.step_before hstep hq
    intro l₀ hq₀
    exact h.queued v k l₀ l' hq₀ j hj
  started := by
    intro k hk j hj
    cases hstep with
    | start v k' rest hq =>
      by_cases hkk : k = k'
      · -- nothing stands before the head of a queue
        subst hkk
        exact finished_of_covered_nil (h.queued v k [] rest hq j hj)
      · exact h.started k (by simpa [hkk] using hk) j hj
    | finish v k' rest hq hk' =>
      by_cases hjk : j = k'
      · simp [hjk]
      · simpa [hjk] using h.started k hk j hj
    | record v n rest hq => exact h.started k hk j hj
    | wait v n rest hq hn => exact h.started k hk j hj
    | other v rest hq => exact h.started k hk j hj

end Ordered

end Device

end TorchComms.Foundation
