import TorchComms.CollTrace.HandleStates
import Mathlib.Data.List.Nodup

/-! # Runs of triggers, records and the tracing thread

The live events are those that the map has handles for, and no other handle reaches its event. The
order of the triggers is kept as long as none is overlooked.
-/
namespace TorchComms.CollTrace.Handled

open Function

/-! ### The order of triggers -/

section Order

variable {l : List CollTraceHandleTriggerState} {state : CollTraceHandleTriggerState}
  {x : CollTraceHandle}

theorem legal_nil : Legal [] := ⟨List.nodup_nil, nofun, List.Pairwise.nil⟩

theorem Legal.concat (h : Legal l) (hnew : state ∉ l)
    (hfirst : l = [] → state = .BeforeEnqueueKernel)
    (horder : state = .KernelStarted → .KernelFinished ∉ l) : Legal (l ++ [state]) := by
  constructor
  · rw [List.nodup_append]
    refine ⟨h.nodup, List.nodup_singleton _, ?_⟩
    rintro a ha b hb rfl
    rw [List.mem_singleton.mp hb] at ha
    exact hnew ha
  · cases l with
    | nil =>
      rintro b ⟨⟩
      exact hfirst rfl
    | cons a l => exact h.first
  · rw [List.pairwise_append]
    refine ⟨h.order, List.pairwise_singleton _ _, ?_⟩
    rintro a ha b hb ⟨rfl, rfl⟩
    exact horder (List.mem_singleton.mp hb).symm ha

theorem Legal.eq_of_last_before (h : Legal l) (hlast : l.getLast? = some .BeforeEnqueueKernel) :
    l = [.BeforeEnqueueKernel] := by
  match l with
  | [] => cases hlast
  | [a] => rw [h.first a rfl]
  | a :: b :: l =>
    have hmem : .BeforeEnqueueKernel ∈ b :: l := List.mem_of_getLast? hlast
    have hnotMem := (List.nodup_cons.mp h.nodup).1
    rw [h.first a rfl] at hnotMem
    exact absurd hmem hnotMem

theorem Legal.not_finished_of_last_started (h : Legal l)
    (hlast : l.getLast? = some .KernelStarted) : .KernelFinished ∉ l := by
  rcases List.getLast?_eq_some_iff.mp hlast with ⟨ys, rfl⟩
  intro hmem
  rcases List.mem_append.mp hmem with hys | hlast
  · exact (List.pairwise_append.mp h.order).2.2 _ hys _ (List.mem_singleton_self _) ⟨rfl, rfl⟩
  · cases List.mem_singleton.mp hlast

/-- A trigger that the check lets pass, is not overlooked and does not come behind the end of its
enqueueing keeps the order. -/
theorem Legal.accept (h : Legal x.accepted) (hlast : x.lastTriggerState_ = x.accepted.getLast?)
    (hcheck : checkTriggerStateValidity x.lastTriggerState_ state = true)
    (hover : ¬ Overlooked x state)
    (henq : state = .BeforeEnqueueKernel ∨ state = .AfterEnqueueKernel →
      .AfterEnqueueKernel ∉ x.accepted) : Legal (x.accepted ++ [state]) := by
  cases hx : x.lastTriggerState_ with
  | none =>
    rw [hx] at hcheck hlast
    have hnil := List.getLast?_eq_none_iff.mp hlast.symm
    have hbefore : state = .BeforeEnqueueKernel := of_decide_eq_true hcheck
    rw [hnil, hbefore]
    exact legal_nil.concat List.not_mem_nil (fun _ => rfl) nofun
  | some last =>
    have hmem : last ∈ x.accepted := List.mem_of_getLast? (hlast.symm.trans hx)
    have hne : x.accepted ≠ [] := List.ne_nil_of_mem hmem
    rw [hx] at hcheck hlast
    cases state with
    | BeforeEnqueueKernel =>
      cases last with
      | BeforeEnqueueKernel => cases hcheck
      | AfterEnqueueKernel => exact absurd hmem (henq (Or.inl rfl))
      | KernelStarted => exact absurd (Or.inl hx) hover
      | KernelFinished => exact absurd (Or.inr hx) hover
    | AfterEnqueueKernel => exact h.concat (henq (Or.inr rfl)) (absurd · hne) nofun
    | KernelStarted =>
      cases last with
      | BeforeEnqueueKernel =>
        have heq := h.eq_of_last_before hlast.symm
        rw [heq] at h ⊢
        exact h.concat (by decide) nofun fun _ => by decide
      | AfterEnqueueKernel =>
        exact h.concat (fun hs => hover ⟨hx, Or.inl hs⟩) (absurd · hne)
          fun _ hf => hover ⟨hx, Or.inr hf⟩
      | KernelStarted => cases hcheck
      | KernelFinished => cases hcheck
    | KernelFinished =>
      cases last with
      | BeforeEnqueueKernel =>
        have heq := h.eq_of_last_before hlast.symm
        rw [heq] at h ⊢
        exact h.concat (by decide) nofun nofun
      | AfterEnqueueKernel => exact h.concat (fun hf => hover ⟨hx, hf⟩) (absurd · hne) nofun
      | KernelStarted =>
        exact h.concat (h.not_finished_of_last_started hlast.symm) (absurd · hne) nofun
      | KernelFinished => cases hcheck

end Order

/-! ### What a trigger does -/

section Trigger

variable (maxPendingQueueSize : ℕ) (s : Handled) (h : ℕ) (waitOk : Bool)

/-- The state of an accepted trigger's event, before the handle notes the trigger. -/
def noted (s : Handled) (h : ℕ) (st : CollTraceHandleTriggerState) : Handled :=
  if st = .AfterEnqueueKernel then s.enqueue h else s

theorem triggerEventState_cases (st : CollTraceHandleTriggerState) :
    s.triggerEventState maxPendingQueueSize h (some st) waitOk = (false, s) ∨
    s.pendingEnqueueColl_ = some h ∧ s.triggerEventState maxPendingQueueSize h (some st) waitOk =
      (false, { s.release h with pendingEnqueueColl_ := none }) ∨
    waitOk = true ∧
      (st = .BeforeEnqueueKernel ∨ st = .AfterEnqueueKernel → s.pendingEnqueueColl_ = some h) ∧
      s.triggerEventState maxPendingQueueSize h (some st) waitOk = (true, s.noted h st) := by
  cases st with
  | BeforeEnqueueKernel =>
    by_cases hok : s.pendingEnqueueColl_ = some h ∧ waitOk = true
    · exact Or.inr (Or.inr ⟨hok.2, fun _ => hok.1, by simp [triggerEventState, noted, hok]⟩)
    · refine Or.inl (Prod.ext ?_ rfl)
      simpa [triggerEventState] using hok
  | AfterEnqueueKernel =>
    simp only [triggerEventState]
    by_cases hok : s.pendingEnqueueColl_ = some h ∧ waitOk = true
    · rw [if_pos (by simpa using hok)]
      split
      · exact Or.inr (Or.inr ⟨hok.2, fun _ => hok.1, rfl⟩)
      · exact Or.inr (Or.inl ⟨hok.1, rfl⟩)
    · rw [if_neg (by simpa using hok)]
      exact Or.inl rfl
  | KernelStarted =>
    cases waitOk with
    | false => exact Or.inl rfl
    | true => exact Or.inr (Or.inr ⟨rfl, by simp, rfl⟩)
  | KernelFinished =>
    cases waitOk with
    | false => exact Or.inl rfl
    | true => exact Or.inr (Or.inr ⟨rfl, by simp, rfl⟩)

/-- A trigger is refused, or is refused and drops the pending event, or is accepted. -/
theorem trigger_cases (state : Option CollTraceHandleTriggerState) :
    s.trigger maxPendingQueueSize h state waitOk = (false, s) ∨
    s.pendingEnqueueColl_ = some h ∧ s.trigger maxPendingQueueSize h state waitOk =
      (false, { s.release h with pendingEnqueueColl_ := none }) ∨
    ∃ st, state = some st ∧ waitOk = true ∧ (s.handle h).referenceInvalidated_ = false ∧
      checkTriggerStateValidity (s.handle h).lastTriggerState_ st = true ∧
      (st = .BeforeEnqueueKernel ∨ st = .AfterEnqueueKernel → s.pendingEnqueueColl_ = some h) ∧
      s.trigger maxPendingQueueSize h state waitOk = (true, (s.noted h st).accept h st) := by
  unfold trigger
  by_cases hinv : (s.handle h).referenceInvalidated_ = true
  · rw [if_pos hinv]
    exact Or.inl rfl
  rw [if_neg hinv]
  by_cases hcheck : checkValidity (s.handle h).lastTriggerState_ state = true
  · rw [if_pos hcheck]
    cases state with
    | none => exact Or.inl rfl
    | some st =>
      rcases triggerEventState_cases maxPendingQueueSize s h waitOk st with
        heq | ⟨hpending, heq⟩ | ⟨hok, hpend, heq⟩
      · rw [heq]
        exact Or.inl rfl
      · rw [heq]
        exact Or.inr (Or.inl ⟨hpending, rfl⟩)
      · rw [heq]
        exact Or.inr (Or.inr ⟨st, rfl, hok, Bool.eq_false_iff.mpr hinv, hcheck, hpend, rfl⟩)
  · rw [if_neg hcheck]
    exact Or.inl rfl

end Trigger

/-! ### Events and their handles -/

section Life

variable {s t : Handled} {e h : ℕ} {st : CollTraceHandleTriggerState}

def live (s : Handled) : List ℕ :=
  s.pendingEnqueueColl_.toList ++ s.pendingTraceColls_ ++ s.phase.event.toList

theorem mem_live : e ∈ s.live ↔ s.Live e := by
  simp [live, Live]

/-- A handle that can be used has its event, or nothing has been triggered on it: such a handle
accepts nothing but `BeforeEnqueueKernel`, and that only while its event is pending. -/
structure Life (s : Handled) : Prop where
  nodup : s.live.Nodup
  bound : ∀ e ∈ s.live, e < s.collId_
  mapped : ∀ e h, s.eventToHandleMap_ e = some h ↔ e ∈ s.live ∧ h = e
  valid : ∀ e ∈ s.live, (s.handle e).referenceInvalidated_ = false
  alive : ∀ h < s.collId_, (s.handle h).referenceInvalidated_ = false →
    h ∈ s.live ∨ (s.handle h).accepted = []
  calls : ∀ call ∈ s.calls, call.handlePtr = call.pending

theorem Life.init : init.Life where
  nodup := List.nodup_nil
  bound := nofun
  mapped _ _ := ⟨nofun, fun hmem => nomatch hmem.1⟩
  valid := nofun
  alive _ hlt := absurd hlt (Nat.not_lt_zero _)
  calls := nofun

theorem Life.map_of_mem (hl : s.Life) (he : e ∈ s.live) : s.eventToHandleMap_ e = some e :=
  (hl.mapped e e).mpr ⟨he, rfl⟩

theorem Life.perm (hl : s.Life) (hperm : t.live.Perm s.live) (hid : t.collId_ = s.collId_)
    (hcalls : ∀ call ∈ t.calls, call.handlePtr = call.pending)
    (hmap : t.eventToHandleMap_ = s.eventToHandleMap_)
    (hinv : ∀ e, (t.handle e).referenceInvalidated_ = (s.handle e).referenceInvalidated_)
    (haccepted : ∀ e, e ∈ s.live ∨ (t.handle e).accepted = (s.handle e).accepted) : t.Life where
  nodup := hperm.nodup_iff.mpr hl.nodup
  bound e he := hid ▸ hl.bound e (hperm.subset he)
  mapped e h := by rw [hmap, hl.mapped, hperm.mem_iff]
  valid e he := (hinv e).trans (hl.valid e (hperm.subset he))
  alive e he hvalid := by
    rcases haccepted e with hmem | heq
    · exact Or.inl (hperm.mem_iff.mpr hmem)
    · rw [heq, hperm.mem_iff]
      exact hl.alive e (hid ▸ he) ((hinv e).symm.trans hvalid)
  calls := hcalls

theorem Life.drop (hl : s.Life) (hperm : s.live.Perm (e :: t.live)) (hid : t.collId_ = s.collId_)
    (hcalls : t.calls = s.calls) (hmap : t.eventToHandleMap_ = update s.eventToHandleMap_ e none)
    (hhandle : ∀ x, x ≠ e → t.handle x = s.handle x)
    (hgone : (t.handle e).referenceInvalidated_ = true ∨ (t.handle e).accepted = []) : t.Life := by
  have hnodup := List.nodup_cons.mp (hperm.nodup_iff.mp hl.nodup)
  have hmem (x : ℕ) (hx : x ≠ e) : x ∈ t.live ↔ x ∈ s.live := by
    rw [hperm.mem_iff, List.mem_cons, or_iff_right hx]
  have hne (x : ℕ) (hx : x ∈ t.live) : x ≠ e := fun heq => hnodup.1 (heq ▸ hx)
  constructor
  case nodup => exact hnodup.2
  case bound =>
    intro x hx
    rw [hid]
    exact hl.bound x ((hmem x (hne x hx)).mp hx)
  case mapped =>
    intro x h
    rw [hmap]
    by_cases hx : x = e
    · rw [hx, update_self]
      exact ⟨nofun, fun hlive => absurd hlive.1 hnodup.1⟩
    · rw [update_of_ne hx, hl.mapped, hmem x hx]
  case valid =>
    intro x hx
    rw [hhandle x (hne x hx)]
    exact hl.valid x ((hmem x (hne x hx)).mp hx)
  case alive =>
    intro x hlt hvalid
    by_cases hx : x = e
    · subst hx
      exact hgone.elim (fun hinv => absurd (hinv.symm.trans hvalid) Bool.noConfusion) Or.inr
    · rw [hhandle x hx] at hvalid ⊢
      rw [hmem x hx]
      exact hl.alive x (hid ▸ hlt) hvalid
  case calls =>
    rw [hcalls]
    exact hl.calls

theorem invalidate_self : ((s.invalidate h).handle h).referenceInvalidated_ = true := by
  simp [Handled.invalidate]

theorem invalidate_of_ne (hne : e ≠ h) : (s.invalidate h).handle e = s.handle e :=
  update_of_ne hne _ _

theorem Life.invalidate (hl : s.Life) (hgone : h ∉ s.live) : (s.invalidate h).Life where
  __ := hl
  valid e he := by
    have hne : e ≠ h := fun heq => hgone (heq ▸ he)
    rw [invalidate_of_ne hne]
    exact hl.valid e he
  alive x hlt hvalid := by
    by_cases hx : x = h
    · rw [hx, invalidate_self] at hvalid
      cases hvalid
    · rw [invalidate_of_ne hx] at hvalid ⊢
      exact hl.alive x hlt hvalid

theorem live_record (hnone : s.pendingEnqueueColl_ = none) :
    s.record.live = s.collId_ :: s.live := by
  rw [live, live, hnone]
  rfl

theorem record_self : s.record.handle s.collId_ = .create := update_self _ _ _

theorem record_of_ne (hne : e ≠ s.collId_) : s.record.handle e = s.handle e := update_of_ne hne _ _

theorem Life.record (hl : s.Life) (hnone : s.pendingEnqueueColl_ = none) : s.record.Life := by
  have hnew : s.collId_ ∉ s.live := fun hmem => Nat.lt_irrefl _ (hl.bound _ hmem)
  have hne (e : ℕ) (he : e ∈ s.live) : e ≠ s.collId_ := fun heq => hnew (heq ▸ he)
  constructor
  case nodup =>
    rw [live_record hnone]
    exact List.nodup_cons.mpr ⟨hnew, hl.nodup⟩
  case bound =>
    intro e he
    rw [live_record hnone] at he
    rcases List.mem_cons.mp he with heq | hmem
    · exact heq ▸ Nat.lt_succ_self _
    · exact Nat.lt_succ_of_lt (hl.bound e hmem)
  case mapped =>
    intro e h
    rw [live_record hnone, List.mem_cons]
    by_cases he : e = s.collId_
    · simp [Handled.record, he, eq_comm]
    · simp [Handled.record, he, hl.mapped]
  case valid =>
    intro e he
    rw [live_record hnone] at he
    rcases List.mem_cons.mp he with heq | hmem
    · rw [heq, record_self]
      rfl
    · rw [record_of_ne (hne e hmem)]
      exact hl.valid e hmem
  case alive =>
    intro h hlt hvalid
    rw [live_record hnone]
    by_cases hh : h = s.collId_
    · exact Or.inl (List.mem_cons.mpr (Or.inl hh))
    · rw [record_of_ne hh] at hvalid ⊢
      rw [List.mem_cons, or_iff_right hh]
      exact hl.alive h (Nat.lt_of_le_of_ne (Nat.le_of_lt_succ hlt) hh) hvalid
  case calls => exact hl.calls

end Life

/-! ### Steps keep them -/

section Steps

variable {s t : Handled} {e h : ℕ} {st : CollTraceHandleTriggerState}

theorem accept_handle_self :
    ((s.accept h st).handle h).accepted = (s.handle h).accepted ++ [st] := by
  simp [accept]

theorem accept_last_self : ((s.accept h st).handle h).lastTriggerState_ = some st := by
  simp [accept]

theorem accept_of_ne (hne : e ≠ h) : (s.accept h st).handle e = s.handle e := update_of_ne hne _ _

theorem accept_valid : ((s.accept h st).handle e).referenceInvalidated_ =
    (s.handle e).referenceInvalidated_ := by
  by_cases hne : e = h
  · simp [hne, accept]
  · rw [accept_of_ne hne]

theorem live_noted (hpending : st = .AfterEnqueueKernel → s.pendingEnqueueColl_ = some h) :
    (s.noted h st).live.Perm s.live := by
  unfold noted
  split
  next hst =>
    rw [live, live, hpending hst]
    have hperm : (s.pendingTraceColls_ ++ [h]).Perm ([h] ++ s.pendingTraceColls_) :=
      List.perm_append_comm
    exact hperm.append_right _
  next => exact List.Perm.refl _

theorem noted_frame (s : Handled) (h : ℕ) (st : CollTraceHandleTriggerState) :
    (s.noted h st).handle = s.handle ∧
    (s.noted h st).eventToHandleMap_ = s.eventToHandleMap_ ∧ (s.noted h st).collId_ = s.collId_ ∧
    (s.noted h st).calls = s.calls := by
  unfold noted
  split <;> exact ⟨rfl, rfl, rfl, rfl⟩

theorem Life.noted (hl : s.Life)
    (hpending : st = .AfterEnqueueKernel → s.pendingEnqueueColl_ = some h) :
    (s.noted h st).Life := by
  obtain ⟨hhandle, hmap, hid, hcalls⟩ := noted_frame s h st
  apply hl.perm (live_noted hpending) hid (hcalls ▸ hl.calls) hmap
  · intro e
    rw [hhandle]
  · intro e
    exact Or.inr (by rw [hhandle])

theorem Life.accept (hl : s.Life) (hlive : h ∈ s.live) : (s.accept h st).Life := by
  apply hl.perm (t := s.accept h st) (List.Perm.refl _) rfl hl.calls rfl fun _ => accept_valid
  intro e
  by_cases he : e = h
  · exact Or.inl (he ▸ hlive)
  · exact Or.inr (by rw [accept_of_ne he])

theorem Life.release_eq (hl : s.Life) (he : e ∈ s.live) :
    s.release e = (s.invalidate e).erase e := by
  rw [Handled.release, hl.map_of_mem he]

theorem Life.release (hl : s.Life) (hperm : s.live.Perm (e :: t.live)) (hid : t.collId_ = s.collId_)
    (hcalls : t.calls = s.calls)
    (hmap : t.eventToHandleMap_ = ((s.invalidate e).erase e).eventToHandleMap_)
    (hhandle : t.handle = ((s.invalidate e).erase e).handle) : t.Life := by
  refine hl.drop hperm hid hcalls hmap (fun x hx => ?_) (Or.inl ?_)
  · rw [hhandle]
    exact invalidate_of_ne hx
  · rw [hhandle]
    exact invalidate_self

variable {maxPendingQueueSize : ℕ} {call : RecordCall} {op : Op} {waitOk : Bool}
  {state : Option CollTraceHandleTriggerState}

theorem live_drop_pending (hpending : s.pendingEnqueueColl_ = some e) :
    s.live = e :: { s with pendingEnqueueColl_ := none : Handled }.live := by
  rw [live, live, hpending]
  rfl

section

variable (hl : s.Life)
include hl

theorem Life.dropPending (hpending : s.pendingEnqueueColl_ = some e) :
    { s.release e with pendingEnqueueColl_ := none : Handled }.Life := by
  rw [hl.release_eq (mem_live.mpr (Or.inl hpending))]
  apply hl.release (t := { (s.invalidate e).erase e with pendingEnqueueColl_ := none }) _ rfl rfl
    rfl rfl
  rw [live_drop_pending hpending]
  rfl

theorem Life.live_of_accept (hlt : h < s.collId_)
    (hlast : (s.handle h).lastTriggerState_ = (s.handle h).accepted.getLast?)
    (hvalid : (s.handle h).referenceInvalidated_ = false)
    (hcheck : checkTriggerStateValidity (s.handle h).lastTriggerState_ st = true)
    (hpending : st = .BeforeEnqueueKernel ∨ st = .AfterEnqueueKernel →
      s.pendingEnqueueColl_ = some h) : h ∈ s.live := by
  rcases hl.alive h hlt hvalid with hmem | hnil
  · exact hmem
  · rw [hlast, hnil] at hcheck
    have hbefore : st = .BeforeEnqueueKernel := of_decide_eq_true hcheck
    exact mem_live.mpr (Or.inl (hpending (Or.inl hbefore)))

theorem Life.replace (hcall : call.handlePtr = call.pending)
    (hsame : ∀ e, s.pendingEnqueueColl_ = some e → call.pending = some e ∨
      call.pending ≠ none ∧ (s.handle e).accepted = [])
    (hgone : ∀ e, call.pending = some e → s.pendingEnqueueColl_ = some e ∨ ¬ s.Live e) :
    (s.replace call).Life := by
  unfold Handled.replace
  rw [hcall]
  cases hlooked : call.pending with
  | none =>
    rw [hlooked] at hsame
    cases hpending : s.pendingEnqueueColl_ with
    | none => exact hl.record hpending
    | some e => exact (hsame e hpending).elim nofun fun hne => absurd rfl hne.1
  | some e =>
    rw [hlooked] at hsame
    cases hpending : s.pendingEnqueueColl_ with
    | none =>
      have hdead : e ∉ s.live := by
        rw [mem_live]
        exact (hgone e hlooked).resolve_left (by rw [hpending]; nofun)
      exact (hl.invalidate hdead).record hpending
    | some e' =>
      -- the new event takes the place of `e'`, so nothing reads the pending event that is left
      suffices hdrop : { (s.invalidate e).erase e' with pendingEnqueueColl_ := none : Handled }.Life
        from hdrop.record rfl
      by_cases he : e = e'
      · subst he
        have hmem : e ∈ s.live := mem_live.mpr (Or.inl hpending)
        have hdrop := hl.dropPending hpending
        rwa [hl.release_eq hmem] at hdrop
      · have hdead : e ∉ s.live := by
          rw [mem_live]
          apply (hgone e hlooked).resolve_left
          rw [hpending]
          exact fun h => he (Option.some.inj h).symm
        apply (hl.invalidate hdead).drop (e := e')
          (t := { (s.invalidate e).erase e' with pendingEnqueueColl_ := none })
        · rw [live_drop_pending (s := s.invalidate e) hpending]
          rfl
        · rfl
        · rfl
        · rfl
        · exact fun x _ => rfl
        · refine Or.inr ?_
          have haccepted := ((hsame e' hpending).resolve_left fun h => he (Option.some.inj h)).2
          rw [← haccepted]
          exact congrArg _ (invalidate_of_ne fun h => he h.symm)

theorem Life.look : s.look.Life := by
  apply hl.perm (t := s.look) (List.Perm.refl _) rfl _ rfl (fun _ => rfl) fun _ => Or.inr rfl
  intro call hcall
  rcases List.mem_append.mp hcall with hmem | hnew
  · exact hl.calls call hmem
  · rw [List.mem_singleton.mp hnew]
    cases hpending : s.pendingEnqueueColl_ with
    | none => rfl
    | some e => exact hl.map_of_mem (mem_live.mpr (Or.inl hpending))

theorem Life.returned {calls : List RecordCall} (hcalls : calls.Sublist s.calls) :
    { s with calls := calls : Handled }.Life :=
  hl.perm (t := { s with calls := calls }) (List.Perm.refl _) rfl
    (fun call hcall => hl.calls call (hcalls.subset hcall)) rfl (fun _ => rfl) fun _ => Or.inr rfl

end

theorem replace_calls : (s.replace call).calls = s.calls := by
  unfold Handled.replace
  cases call.handlePtr with
  | none => rfl
  | some h => cases hpending : s.pendingEnqueueColl_ <;> simp [hpending, record, invalidate, erase]

variable {phase : TracePhase}

theorem Life.take {rest : List ℕ} (hl : s.Life)
    (hqueue : s.pendingTraceColls_ = e :: rest) (hphase : s.phase.next (.take e) = some phase) :
    { s with phase := phase, pendingTraceColls_ := rest : Handled }.Life := by
  obtain ⟨hbefore, rfl⟩ := TracePhase.next_take hphase
  apply hl.perm (t := { s with phase := _, pendingTraceColls_ := rest }) _ rfl hl.calls rfl
    (fun _ => rfl) fun _ => Or.inr rfl
  rw [live, live, hqueue, hbefore, List.append_assoc, List.append_assoc]
  apply List.Perm.append_left
  simp [TracePhase.event]

theorem Life.goOn {a : TraceAction} (hl : s.Life) (ha : ∀ e, a ≠ .take e)
    (hphase : s.phase.next a = some phase) : (s.goOn phase).Life := by
  unfold Handled.goOn
  cases he : s.phase.event with
  | none =>
    have hnone : phase.event = none := by
      rw [Option.eq_none_iff_forall_not_mem]
      intro e hmem
      rw [TracePhase.event_next hphase ha hmem] at he
      cases he
    apply hl.perm (t := { s with phase := phase }) _ rfl hl.calls rfl (fun _ => rfl)
      fun _ => Or.inr rfl
    rw [live, live, he, hnone]
  | some e =>
    cases he' : phase.event with
    | none =>
      change { s.release e with phase := phase : Handled }.Life
      rw [hl.release_eq (mem_live.mpr (Or.inr (Or.inr he)))]
      apply hl.release (t := { (s.invalidate e).erase e with phase := phase }) _ rfl rfl rfl rfl
      rw [live, live, he, he']
      have hperm : (s.pendingEnqueueColl_.toList ++ s.pendingTraceColls_ ++ [e]).Perm
          ([e] ++ (s.pendingEnqueueColl_.toList ++ s.pendingTraceColls_)) := List.perm_append_comm
      simpa [Handled.invalidate, erase] using hperm
    | some e' =>
      have heq := TracePhase.event_next hphase ha he'
      apply hl.perm (t := { s with phase := phase }) _ rfl hl.calls rfl (fun _ => rfl)
        fun _ => Or.inr rfl
      rw [live, live, heq, he']

end Steps

/-! ### The order along a run -/

section Order

variable {s t : Handled} {h maxPendingQueueSize : ℕ} {st : CollTraceHandleTriggerState}

/-- Triggers are in a legal order, and an event whose enqueueing has ended is not pending. -/
structure Ordered (s : Handled) : Prop where
  legal : ∀ h < s.collId_, Legal (s.handle h).accepted
  last : ∀ h < s.collId_, (s.handle h).lastTriggerState_ = (s.handle h).accepted.getLast?
  enqueued : ∀ h < s.collId_, .AfterEnqueueKernel ∈ (s.handle h).accepted →
    s.pendingEnqueueColl_ ≠ some h

theorem Ordered.init : init.Ordered :=
  ⟨fun _ hlt => absurd hlt (Nat.not_lt_zero _), fun _ hlt => absurd hlt (Nat.not_lt_zero _),
    fun _ hlt => absurd hlt (Nat.not_lt_zero _)⟩

theorem Ordered.keep (ho : s.Ordered) (hid : t.collId_ = s.collId_)
    (hkept : ∀ h, (t.handle h).accepted = (s.handle h).accepted ∧
      (t.handle h).lastTriggerState_ = (s.handle h).lastTriggerState_)
    (hpending : ∀ h, t.pendingEnqueueColl_ = some h → s.pendingEnqueueColl_ = some h) :
    t.Ordered where
  legal h hlt := (hkept h).1 ▸ ho.legal h (hid ▸ hlt)
  last h hlt := by rw [(hkept h).2, (hkept h).1, ho.last h (hid ▸ hlt)]
  enqueued h hlt hmem hp := ho.enqueued h (hid ▸ hlt) ((hkept h).1 ▸ hmem) (hpending h hp)

theorem invalidate_accepted (e : ℕ) : ((s.invalidate h).handle e).accepted = (s.handle e).accepted ∧
    ((s.invalidate h).handle e).lastTriggerState_ = (s.handle e).lastTriggerState_ := by
  by_cases hne : e = h
  · simp [hne, Handled.invalidate]
  · rw [invalidate_of_ne hne]
    exact ⟨rfl, rfl⟩

theorem release_accepted (e : ℕ) : ((s.release h).handle e).accepted = (s.handle e).accepted ∧
    ((s.release h).handle e).lastTriggerState_ = (s.handle e).lastTriggerState_ := by
  unfold release
  split
  · exact ⟨rfl, rfl⟩
  · exact invalidate_accepted e

theorem Ordered.accept (ho : s.Ordered) (hlt : h < s.collId_)
    (hcheck : checkTriggerStateValidity (s.handle h).lastTriggerState_ st = true)
    (hpending : st = .BeforeEnqueueKernel ∨ st = .AfterEnqueueKernel →
      s.pendingEnqueueColl_ = some h)
    (hover : ¬ Overlooked (s.handle h) st) : ((s.noted h st).accept h st).Ordered := by
  obtain ⟨hhandle, -, hid, -⟩ := noted_frame s h st
  have hlegal : Legal ((s.handle h).accepted ++ [st]) :=
    (ho.legal h hlt).accept (ho.last h hlt) hcheck hover
      fun henq hmem => ho.enqueued h hlt hmem (hpending henq)
  constructor
  case legal =>
    intro x hx
    by_cases hne : x = h
    · rw [hne, accept_handle_self, hhandle]
      exact hlegal
    · rw [accept_of_ne hne, hhandle]
      exact ho.legal x (hid ▸ hx)
  case last =>
    intro x hx
    by_cases hne : x = h
    · rw [hne, accept_handle_self, accept_last_self, List.getLast?_concat]
    · rw [accept_of_ne hne, hhandle]
      exact ho.last x (hid ▸ hx)
  case enqueued =>
    intro x hx hmem hp
    change (s.noted h st).pendingEnqueueColl_ = some x at hp
    unfold noted at hp
    split at hp
    next => cases hp
    next hst =>
      by_cases hne : x = h
      · rw [hne, accept_handle_self, hhandle] at hmem
        have hold := (List.mem_append.mp hmem).resolve_right
          fun hnew => hst (List.mem_singleton.mp hnew).symm
        exact ho.enqueued h hlt hold (hne ▸ hp)
      · rw [accept_of_ne hne, hhandle] at hmem
        exact ho.enqueued x (hid ▸ hx) hmem hp

theorem Ordered.record (ho : s.Ordered) : s.record.Ordered := by
  have hold (x : ℕ) (hx : x < s.collId_ + 1) (hne : x ≠ s.collId_) : x < s.collId_ :=
    Nat.lt_of_le_of_ne (Nat.le_of_lt_succ hx) hne
  constructor
  case legal =>
    intro x hx
    by_cases hne : x = s.collId_
    · rw [hne, record_self]
      exact legal_nil
    · rw [record_of_ne hne]
      exact ho.legal x (hold x hx hne)
  case last =>
    intro x hx
    by_cases hne : x = s.collId_
    · rw [hne, record_self]
      rfl
    · rw [record_of_ne hne]
      exact ho.last x (hold x hx hne)
  case enqueued =>
    intro x hx hmem hp
    have hnew : x = s.collId_ := (Option.some.inj hp).symm
    rw [hnew, record_self] at hmem
    cases hmem

theorem Ordered.replace (ho : s.Ordered) (call : RecordCall) : (s.replace call).Ordered := by
  unfold Handled.replace
  apply Ordered.record
  split
  · exact ho
  · rename_i x _
    split
    · exact ho.keep (t := s.invalidate x) rfl invalidate_accepted fun _ => id
    · exact ho.keep (t := (s.invalidate x).erase _) rfl invalidate_accepted fun _ => id

theorem release_frame : (s.release h).collId_ = s.collId_ ∧
    (s.release h).pendingEnqueueColl_ = s.pendingEnqueueColl_ := by
  unfold release
  split <;> exact ⟨rfl, rfl⟩

theorem Ordered.goOn {phase : TracePhase} (ho : s.Ordered) : (s.goOn phase).Ordered := by
  unfold Handled.goOn
  split
  next e _ _ =>
    apply ho.keep (t := { s.release e with phase := phase }) release_frame.1 release_accepted
    intro x hp
    exact release_frame.2.symm.trans hp
  next => exact ho.keep rfl (fun _ => ⟨rfl, rfl⟩) fun _ => id

theorem Ordered.dropPending (ho : s.Ordered) :
    { s.release h with pendingEnqueueColl_ := none : Handled }.Ordered :=
  ho.keep release_frame.1 release_accepted nofun

end Order

/-! ### Runs -/

section Runs

variable {s t : Handled} {maxPendingQueueSize h : ℕ} {op : Op}

theorem Step.keeps (hstep : Step maxPendingQueueSize s op t) (hmeets : s.Undisturbed op)
    (hl : s.Life) (ho : s.Ordered) : t.Life ∧ t.Ordered := by
  cases hstep with
  | trigger h state waitOk hlt =>
    rcases trigger_cases maxPendingQueueSize s h waitOk state with
      heq | ⟨hpending, heq⟩ | ⟨st, rfl, rfl, hvalid, hcheck, hpending, heq⟩
    · rw [heq]
      exact ⟨hl, ho⟩
    · rw [heq]
      exact ⟨hl.dropPending hpending, ho.dropPending⟩
    · rw [heq]
      have hlive : h ∈ s.live := hl.live_of_accept hlt (ho.last h hlt) hvalid hcheck hpending
      have hnoted := hl.noted fun hst => hpending (Or.inr hst)
      refine ⟨hnoted.accept ((live_noted fun hst => hpending (Or.inr hst)).mem_iff.mpr hlive), ?_⟩
      exact ho.accept hlt hcheck hpending (hmeets hvalid fun hst => hpending (Or.inl hst))
  | look => exact ⟨hl.look, ho.keep rfl (fun _ => ⟨rfl, rfl⟩) fun _ => id⟩
  | replace i call hcall =>
    have hfound := hl.calls call (List.mem_of_getElem? hcall)
    have hreplaced := hl.replace hfound (hmeets call hcall).1 (hmeets call hcall).2
    refine ⟨hreplaced.returned ?_,
      (ho.replace call).keep rfl (fun _ => ⟨rfl, rfl⟩) fun _ => id⟩
    rw [replace_calls]
    exact List.eraseIdx_sublist _ _
  | take e rest phase hqueue hphase =>
    exact ⟨hl.take hqueue hphase, ho.keep rfl (fun _ => ⟨rfl, rfl⟩) fun _ => id⟩
  | thread a phase ha _ hphase => exact ⟨hl.goOn ha hphase, ho.goOn⟩

theorem Reachable.keeps (hreach : Reachable maxPendingQueueSize Undisturbed s) :
    s.Life ∧ s.Ordered := by
  induction hreach with
  | init => exact ⟨Life.init, Ordered.init⟩
  | step _ hstep hmeets ih => exact hstep.keeps hmeets ih.1 ih.2

end Runs

end TorchComms.CollTrace.Handled
