import TorchComms.CollTrace.CommDumpPlugin
import Mathlib.Data.List.Nodup
import Mathlib.Data.Int.Order.Basic

/-! # What the dump records

The collectives between `recordCollective` and the end of their tracing form one line. Those of them
that the plugin accepted are, in the same order, the current collective, the pending ones and those
in its queue. This lasts as long as no accepted collective leaves the line early.
-/
namespace TorchComms.CollTrace

open Function

/-! ### The last collectives -/

/-- The last `pastCollSize` of a list, or all of it for a negative size. -/
def window (pastCollSize : ℤ) (l : List ℕ) : List ℕ :=
  if 0 ≤ pastCollSize then l.drop (l.length - pastCollSize.toNat) else l

variable {k : ℤ}

theorem evict_of_neg (hk : k < 0) (l : List ℕ) : evict k l = some l := by
  cases l with
  | nil => rw [evict, if_neg (by omega)]
  | cons c l => rw [evict, if_neg (by omega)]

theorem evict_of_pos (hk : 0 < k) (l : List ℕ) :
    evict k l = some (l.drop (l.length + 1 - k.toNat)) := by
  induction l with
  | nil => rw [evict, if_neg (by omega), List.drop_nil]
  | cons c l ih =>
    by_cases hlen : k ≤ (c :: l).length
    · have hdrop : (c :: l).length + 1 - k.toNat = l.length + 1 - k.toNat + 1 := by
        rw [List.length_cons] at hlen ⊢
        omega
      rw [evict, if_pos ⟨by omega, hlen⟩, ih, hdrop, List.drop_succ_cons]
    · have hdrop : (c :: l).length + 1 - k.toNat = 0 := by omega
      rw [evict, if_neg (fun h => hlen h.2), hdrop, List.drop_zero]

theorem evict_window (hk : k ≠ 0) (l : List ℕ) (c : ℕ) :
    ∃ past, evict k (window k l) = some past ∧ past ++ [c] = window k (l ++ [c]) := by
  by_cases hneg : k < 0
  · refine ⟨l, ?_, ?_⟩
    · rw [window, if_neg (by omega), evict_of_neg hneg]
    · rw [window, if_neg (by omega)]
  · have hpos : 0 < k := by omega
    refine ⟨l.drop (l.length + 1 - k.toNat), ?_, ?_⟩
    · rw [window, if_pos (by omega), evict_of_pos hpos, List.drop_drop, List.length_drop]
      congr 2
      omega
    · rw [window, if_pos (by omega), List.length_append, List.length_singleton,
        List.drop_append_of_le_length (by omega)]

theorem window_sublist (k : ℤ) (l : List ℕ) : (window k l).Sublist l := by
  unfold window
  split
  · exact List.drop_sublist _ _
  · exact List.Sublist.refl l

namespace Dumped

variable {config : CommDumpConfig} {maxPendingQueueSize : ℕ} {s s' : Dumped} {op : Op}
  {coll n : ℕ}

/-- The collectives that may still be traced, from the oldest to the newest. -/
def track (s : Dumped) : List ℕ :=
  s.phase.event.toList ++ s.pendingTraceColls_ ++ s.pendingEnqueueColl_.toList

/-- The collective that the plugin was told has started. -/
def startedColl : TracePhase → Option ℕ
  | .waitCollEnd e | .collEnded e => some e
  | _ => none

structure Inv (config : CommDumpConfig) (s : Dumped) : Prop where
  distinct : (s.left ++ s.track).Nodup
  bound : ∀ e ∈ s.left ++ s.track, e < s.collId_
  fresh : ∀ e, s.accepted e = true → e < s.collId_
  queued : s.collTraceDump_.currentColl.toList ++ s.collTraceDump_.pendingColls ++
    s.newPendingColls_ = s.track.filter s.accepted
  current : s.collTraceDump_.currentColl = (startedColl s.phase).filter s.accepted
  past : s.collTraceDump_.pastColls = window config.pastCollSize (s.ended.filter s.accepted)
  ended : s.ended.Sublist s.left
  defined : s.undefined = false

theorem inv_init : init.Inv config where
  distinct := List.nodup_nil
  bound e he := absurd he List.not_mem_nil
  fresh e he := nomatch he
  queued := rfl
  current := rfl
  past := by
    change [] = window config.pastCollSize []
    unfold window
    split
    · exact List.drop_nil.symm
    · rfl
  ended := List.Sublist.refl _
  defined := rfl

/-! ### When a step drops nothing that was accepted -/

/-- No collective is dropped, and no record written twice, once the plugin has accepted it; the
drain of a callback for it is not outrun by new records; and `pastColls` may hold a collective. -/
def Keeps (config : CommDumpConfig) (maxPendingQueueSize : ℕ) (s : Dumped) : Op → Prop
  | .recordCollective => ∀ e, s.pendingEnqueueColl_ = some e → s.accepted e = false
  | .trigger .AfterEnqueueKernel waitOk => ∀ e, s.pendingEnqueueColl_ = some e →
      checkTriggerStateValidity s.lastTriggerState_ .AfterEnqueueKernel = true →
      (s.newPendingColls_.length < config.pendingCollSize → s.accepted e = false) ∧
      (waitOk = true → maxPendingQueueSize ≤ s.pendingTraceColls_.length →
        s.accepted e = false ∧ config.pendingCollSize ≤ s.newPendingColls_.length)
  | .poll .error => ∀ e, s.phase.polled = some e → s.accepted e = false
  | .afterCollKernelStart => ∀ e, s.phase = .collStarted e → s.accepted e = true →
      s.drain ≠ some (.thread, config.pendingCollSize + 1)
  | .afterCollKernelEnd => ∀ e, s.phase = .collEnded e → s.accepted e = true →
      s.drain ≠ some (.thread, config.pendingCollSize + 1) ∧ config.pastCollSize ≠ 0
  | _ => True

/-! ### The enqueuing thread -/

theorem Inv.recordCollective (h : s.Inv config)
    (hkeeps : ∀ e, s.pendingEnqueueColl_ = some e → s.accepted e = false) :
    s.recordCollective.Inv config := by
  have hsub : (s.left ++ (s.phase.event.toList ++ s.pendingTraceColls_)).Sublist
      (s.left ++ s.track) :=
    List.Sublist.append_left (List.sublist_append_left _ _) _
  have hnew : s.accepted s.collId_ = false := by
    cases hacc : s.accepted s.collId_ with
    | false => rfl
    | true => exact absurd (h.fresh _ hacc) (Nat.lt_irrefl _)
  have htrack : s.recordCollective.track =
      s.phase.event.toList ++ s.pendingTraceColls_ ++ [s.collId_] := rfl
  refine ⟨?_, ?_, ?_, ?_, h.current, h.past, h.ended, h.defined⟩
  · rw [htrack, ← List.append_assoc]
    change (s.left ++ _ ++ [s.collId_]).Nodup
    rw [List.nodup_append]
    refine ⟨h.distinct.sublist hsub, List.nodup_singleton _, ?_⟩
    intro e he f hf hef
    have := h.bound e (hsub.subset he)
    rw [hef, List.mem_singleton.mp hf] at this
    exact Nat.lt_irrefl _ this
  · intro e he
    rw [htrack, ← List.append_assoc] at he
    rcases List.mem_append.mp he with he | he
    · exact Nat.lt_succ_of_lt (h.bound e (hsub.subset he))
    · rw [List.mem_singleton.mp he]
      exact Nat.lt_succ_self _
  · intro e he
    exact Nat.lt_succ_of_lt (h.fresh e he)
  · have hqueued := h.queued
    rw [track, List.filter_append] at hqueued
    have hold : s.pendingEnqueueColl_.toList.filter s.accepted = [] := by
      cases hp : s.pendingEnqueueColl_ with
      | none => rfl
      | some e => simp [hkeeps e hp]
    rw [htrack, List.filter_append]
    have hone : [s.collId_].filter s.accepted = [] := by simp [hnew]
    rw [hold] at hqueued
    change _ = List.filter s.accepted _ ++ List.filter s.accepted _
    rw [hone]
    exact hqueued

theorem mem_track_pending (hcoll : s.pendingEnqueueColl_ = some coll) : coll ∈ s.track := by
  simp [track, hcoll]

section

variable (h : s.Inv config) (hcoll : s.pendingEnqueueColl_ = some coll)
include h hcoll

theorem Inv.afterCollKernelScheduled
    (hkeeps : s.newPendingColls_.length < config.pendingCollSize → s.accepted coll = false) :
    (s.afterCollKernelScheduled config coll).Inv config := by
  unfold Dumped.afterCollKernelScheduled
  by_cases hroom : s.newPendingColls_.length < config.pendingCollSize
  · rw [if_pos hroom]
    have hacc := hkeeps hroom
    have hdistinct := h.distinct
    have htrack : s.track = s.phase.event.toList ++ s.pendingTraceColls_ ++ [coll] := by
      rw [track, hcoll]
      rfl
    rw [htrack, ← List.append_assoc, List.nodup_append] at hdistinct
    have hne : ∀ e ∈ s.left ++ (s.phase.event.toList ++ s.pendingTraceColls_), e ≠ coll :=
      fun e he => hdistinct.2.2 e he coll (List.mem_singleton_self coll)
    have hsame : ∀ l : List ℕ, (∀ e ∈ l, e ≠ coll) →
        l.filter (update s.accepted coll true) = l.filter s.accepted := by
      intro l hl
      apply List.filter_congr
      intro e he
      rw [update_of_ne (hl e he)]
    refine ⟨h.distinct, h.bound, ?_, ?_, ?_, ?_, h.ended, h.defined⟩
    · intro e he
      by_cases hec : e = coll
      · rw [hec]
        exact h.bound coll (List.mem_append_right _ (mem_track_pending hcoll))
      · have hold : update s.accepted coll true e = true := he
        rw [update_of_ne hec] at hold
        exact h.fresh e hold
    · have hqueued := h.queued
      change _ ++ (s.newPendingColls_ ++ [coll]) = s.track.filter (update s.accepted coll true)
      rw [htrack, List.filter_append] at hqueued ⊢
      have hbefore : [coll].filter s.accepted = [] := by simp [hacc]
      have hafter : [coll].filter (update s.accepted coll true) = [coll] := by simp
      rw [hbefore, List.append_nil] at hqueued
      rw [hsame _ fun e he => hne e (List.mem_append_right _ he), hafter, ← hqueued]
      exact (List.append_assoc _ _ _).symm
    · have hstarted : ∀ e, startedColl s.phase = some e → e ≠ coll := by
        intro e he
        apply hne
        have hev : s.phase.event = some e := by
          cases hp : s.phase <;> simp_all [startedColl, TracePhase.event]
        simp [hev]
      change _ = (startedColl s.phase).filter (update s.accepted coll true)
      rw [h.current]
      cases hp : startedColl s.phase with
      | none => rfl
      | some e =>
        have := hstarted e hp
        simp [Option.filter, update_of_ne this]
    · change _ = window _ (s.ended.filter (update s.accepted coll true))
      rw [hsame _ fun e he => hne e (List.mem_append_left _ (h.ended.subset he))]
      exact h.past
  · rw [if_neg hroom]
    exact h

theorem Inv.enqueue
    (hkeeps : maxPendingQueueSize ≤ s.pendingTraceColls_.length → s.accepted coll = false) :
    (s.enqueue maxPendingQueueSize coll).Inv config := by
  unfold Dumped.enqueue
  have htrack : s.track = s.phase.event.toList ++ s.pendingTraceColls_ ++ [coll] := by
    rw [track, hcoll]
    rfl
  by_cases hroom : s.pendingTraceColls_.length < maxPendingQueueSize
  · rw [if_pos hroom]
    have hsame : ({ s with
        pendingTraceColls_ := s.pendingTraceColls_ ++ [coll]
        pendingEnqueueColl_ := none } : Dumped).track = s.track := by
      rw [htrack, List.append_assoc]
      exact List.append_nil _
    refine ⟨?_, ?_, h.fresh, ?_, h.current, h.past, h.ended, h.defined⟩
    · rw [hsame]
      exact h.distinct
    · rw [hsame]
      exact h.bound
    · rw [hsame]
      exact h.queued
  · rw [if_neg hroom]
    have hacc := hkeeps (Nat.le_of_not_lt hroom)
    have hless : ({ s with pendingEnqueueColl_ := none } : Dumped).track =
        s.phase.event.toList ++ s.pendingTraceColls_ := List.append_nil _
    have hsub : (s.left ++ (s.phase.event.toList ++ s.pendingTraceColls_)).Sublist
        (s.left ++ s.track) :=
      List.Sublist.append_left (List.sublist_append_left _ _) _
    refine ⟨?_, ?_, h.fresh, ?_, h.current, h.past, h.ended, h.defined⟩
    · rw [hless]
      exact h.distinct.sublist hsub
    · rw [hless]
      exact fun e he => h.bound e (hsub.subset he)
    · have hqueued := h.queued
      have hone : [coll].filter s.accepted = [] := by simp [hacc]
      rw [htrack, List.filter_append, hone, List.append_nil] at hqueued
      rw [hless]
      exact hqueued

theorem Inv.trigger
    (state : CollTraceHandleTriggerState) (waitOk : Bool)
    (hkeeps : s.Keeps config maxPendingQueueSize (.trigger state waitOk)) :
    (s.trigger config maxPendingQueueSize coll state waitOk).Inv config := by
  have hlast : ∀ last, ({ s with lastTriggerState_ := last } : Dumped).Inv config := fun _ =>
    ⟨h.distinct, h.bound, h.fresh, h.queued, h.current, h.past, h.ended, h.defined⟩
  unfold Dumped.trigger
  by_cases hvalid : checkTriggerStateValidity s.lastTriggerState_ state = true
  · rw [if_pos hvalid]
    by_cases hafter : state = .AfterEnqueueKernel
    · subst hafter
      rw [if_pos rfl]
      obtain ⟨hwrite, hdrop⟩ := hkeeps coll hcoll hvalid
      have hnew := h.afterCollKernelScheduled hcoll hwrite
      cases waitOk with
      | false => exact hnew
      | true =>
        rw [if_pos rfl]
        unfold Dumped.afterCollKernelScheduled at hnew ⊢
        by_cases hroom : s.newPendingColls_.length < config.pendingCollSize
        · rw [if_pos hroom] at hnew ⊢
          refine hnew.enqueue hcoll fun hfull => ?_
          exact absurd (hdrop rfl hfull).2 (Nat.not_le_of_lt hroom)
        · rw [if_neg hroom] at hnew ⊢
          exact hnew.enqueue hcoll fun hfull => (hdrop rfl hfull).1
    · rw [if_neg hafter]
      split
      · exact hlast _
      · exact h
  · rw [if_neg hvalid]
    exact h

end

/-! ### The tracing thread -/

variable {phase : TracePhase} {rest : List ℕ}

theorem Inv.take (h : s.Inv config) (hphase : s.phase = .getNextPendingEvent)
    (hqueue : s.pendingTraceColls_ = coll :: rest) :
    ({ s with phase := .waitCollStart coll, pendingTraceColls_ := rest } : Dumped).Inv config := by
  have htrack : ({ s with
      phase := .waitCollStart coll
      pendingTraceColls_ := rest } : Dumped).track = s.track := by
    rw [track, track, hphase, hqueue]
    rfl
  refine ⟨?_, ?_, h.fresh, ?_, ?_, h.past, h.ended, h.defined⟩
  · rw [htrack]
    exact h.distinct
  · rw [htrack]
    exact h.bound
  · rw [htrack]
    exact h.queued
  · have hcurrent := h.current
    rw [hphase] at hcurrent
    exact hcurrent

variable {d : CollTraceDump}

section

variable (h : s.Inv config)
include h

/-- The thread moves on with the collective that it holds, and the dump shows whether this one has
started. -/
theorem Inv.move (hevent : phase.event = s.phase.event)
    (hqueued : d.currentColl.toList ++ d.pendingColls ++ s.newPendingColls_ =
      s.collTraceDump_.currentColl.toList ++ s.collTraceDump_.pendingColls ++ s.newPendingColls_)
    (hcurrent : d.currentColl = (startedColl phase).filter s.accepted)
    (hpast : d.pastColls = s.collTraceDump_.pastColls) (drain : Option (Reader × ℕ)) :
    ({ s with phase := phase, drain := drain, collTraceDump_ := d } : Dumped).Inv config := by
  have htrack : ({ s with phase := phase, drain := drain, collTraceDump_ := d } : Dumped).track =
      s.track := by
    rw [track, track, hevent]
  refine ⟨?_, ?_, h.fresh, ?_, hcurrent, hpast.trans h.past, h.ended, h.defined⟩
  · rw [htrack]
    exact h.distinct
  · rw [htrack]
    exact h.bound
  · rw [htrack]
    exact hqueued.trans h.queued

/-- The thread is done with its collective, which is no longer in the dump's queues. -/
theorem Inv.leave (hevent : s.phase.event = some coll)
    (hqueued : d.currentColl = none ∧ d.pendingColls ++ s.newPendingColls_ =
      (s.pendingTraceColls_ ++ s.pendingEnqueueColl_.toList).filter s.accepted)
    {ended : List ℕ} (hended : ended.Sublist (s.left ++ [coll]))
    (hpast : d.pastColls = window config.pastCollSize (ended.filter s.accepted))
    (drain : Option (Reader × ℕ)) :
    ({ s with
      phase := .getNextPendingEvent
      drain := drain
      collTraceDump_ := d
      left := s.left ++ [coll]
      ended := ended } : Dumped).Inv config := by
  have hline : s.left ++ s.track =
      s.left ++ [coll] ++ (s.pendingTraceColls_ ++ s.pendingEnqueueColl_.toList) := by
    rw [track, hevent]
    simp
  refine ⟨?_, ?_, h.fresh, ?_, hqueued.1, hpast, hended, h.defined⟩
  · have hdistinct := h.distinct
    rw [hline] at hdistinct
    exact hdistinct
  · intro e he
    apply h.bound
    rw [hline]
    exact he
  · rw [hqueued.1]
    exact hqueued.2

/-- What the plugin holds besides a collective that the thread has not started, or that it did not
accept. -/
theorem Inv.behind (hevent : s.phase.event = some coll) (hacc : s.accepted coll = false) :
    s.collTraceDump_.currentColl = none ∧
      s.collTraceDump_.pendingColls ++ s.newPendingColls_ =
        (s.pendingTraceColls_ ++ s.pendingEnqueueColl_.toList).filter s.accepted := by
  have hnone : s.collTraceDump_.currentColl = none := by
    rw [h.current]
    cases hp : s.phase <;> simp_all [startedColl, TracePhase.event, Option.filter]
  have hqueued := h.queued
  rw [hnone, track, hevent] at hqueued
  refine ⟨hnone, ?_⟩
  simpa [hacc] using hqueued

theorem Inv.poll {r : WaitResult} (hphase : s.phase.next (.poll r) = some phase)
    (hkeeps : s.Keeps config maxPendingQueueSize (.poll r)) :
    ({ s with
      phase := phase
      left := if phase.event = none then s.left ++ s.phase.event.toList else s.left } :
        Dumped).Inv config := by
  obtain ⟨e, he⟩ := TracePhase.polled_of_poll hphase
  have hevent := TracePhase.event_of_polled he
  cases r with
  | error =>
    have hnext : phase = .getNextPendingEvent := by
      cases hp : s.phase <;> rw [hp] at hphase <;> simp_all [TracePhase.next]
    subst hnext
    have hacc := hkeeps e he
    rw [if_pos (show TracePhase.getNextPendingEvent.event = none from rfl), hevent]
    exact h.leave hevent (h.behind hevent hacc) (h.ended.trans (List.sublist_append_left _ _))
      h.past s.drain
  | notYet =>
    have hnext : phase = s.phase := by
      cases hp : s.phase <;> rw [hp] at hphase <;> simp_all [TracePhase.next]
    subst hnext
    rw [if_neg (by simp [hevent])]
    exact h
  | reached =>
    have hnext : phase.event = s.phase.event ∧ startedColl phase = startedColl s.phase := by
      cases hp : s.phase <;> rw [hp] at hphase <;>
        simp_all [TracePhase.next, TracePhase.polled] <;> subst hphase <;>
        simp [TracePhase.event, startedColl]
    rw [if_neg (by simp [hnext.1, hevent])]
    exact h.move hnext.1 rfl (by rw [hnext.2]; exact h.current) rfl s.drain

theorem Inv.front (hphase : s.phase = .collStarted coll)
    (hacc : s.accepted coll = true) (hempty : s.newPendingColls_ = []) :
    s.collTraceDump_.currentColl = none ∧
      ∃ rest, s.collTraceDump_.pendingColls = coll :: rest := by
  have hnone : s.collTraceDump_.currentColl = none := by
    rw [h.current, hphase]
    rfl
  have hqueued := h.queued
  rw [hnone, track, hphase, hempty, List.append_nil] at hqueued
  refine ⟨hnone, ?_⟩
  simp only [TracePhase.event, Option.toList_some, Option.toList_none, List.nil_append,
    List.cons_append, List.filter_cons, hacc, if_true] at hqueued
  exact ⟨_, hqueued⟩

theorem Inv.not_queued (hacc : s.accepted coll = false) :
    coll ∉ s.collTraceDump_.pendingColls ∧ s.collTraceDump_.currentColl ≠ some coll := by
  have hmem : ∀ e, e ∈ s.track.filter s.accepted → e ≠ coll := by
    intro e he hec
    have := (List.mem_filter.mp he).2
    rw [hec, hacc] at this
    exact absurd this nofun
  rw [← h.queued] at hmem
  constructor
  · intro hc
    exact hmem coll (by simp [hc]) rfl
  · intro hc
    exact hmem coll (by simp [hc]) rfl

end

theorem start_of_front (hcurrent : d.currentColl = none)
    (hpending : d.pendingColls = coll :: rest) :
    d.start coll = { d with currentColl := some coll, pendingColls := rest } := by
  simp [CollTraceDump.start, hpending, hcurrent]

theorem start_of_not_mem (hpending : coll ∉ d.pendingColls) : d.start coll = d := by
  unfold CollTraceDump.start
  split
  · rfl
  · rename_i front rest hp
    have hne : front ≠ coll := by
      rintro rfl
      rw [hp] at hpending
      exact hpending List.mem_cons_self
    rw [if_pos hne]

theorem Inv.afterCollKernelStart (h : s.Inv config) (hphase : s.phase = .collStarted coll)
    (hdrain : s.drain = some (.thread, n)) (hstop : s.Drained config n)
    (hkeeps : s.Keeps config maxPendingQueueSize .afterCollKernelStart) :
    ({ s with
      phase := .waitCollEnd coll
      drain := none
      collTraceDump_ :=
        if n = config.pendingCollSize + 1 then s.collTraceDump_
        else s.collTraceDump_.start coll } : Dumped).Inv config := by
  have hevent : (TracePhase.waitCollEnd coll).event = s.phase.event := by
    rw [hphase]
    rfl
  cases hacc : s.accepted coll with
  | true =>
    have hfull : n ≠ config.pendingCollSize + 1 := by
      rintro rfl
      exact hkeeps coll hphase hacc hdrain
    obtain ⟨hnone, rest, hpending⟩ := h.front hphase hacc (hstop.resolve_right hfull)
    rw [if_neg hfull, start_of_front hnone hpending]
    refine h.move
      (d := { s.collTraceDump_ with currentColl := some coll, pendingColls := rest })
      hevent ?_ ?_ rfl none
    · rw [hnone, hpending]
      rfl
    · simp [startedColl, Option.filter, hacc]
  | false =>
    have hsame : (if n = config.pendingCollSize + 1 then s.collTraceDump_
        else s.collTraceDump_.start coll) = s.collTraceDump_ := by
      rw [start_of_not_mem (h.not_queued hacc).1, ite_self]
    rw [hsame]
    refine h.move hevent rfl ?_ rfl none
    rw [h.current, hphase]
    simp [startedColl, Option.filter, hacc]

theorem Inv.afterCollKernelEnd {d : Option CollTraceDump} (h : s.Inv config)
    (hphase : s.phase = .collEnded coll) (hdrain : s.drain = some (.thread, n))
    (hd : d = if n = config.pendingCollSize + 1 then some s.collTraceDump_
      else s.collTraceDump_.finish config coll)
    (hkeeps : s.Keeps config maxPendingQueueSize .afterCollKernelEnd) :
    ({ s with
      phase := .getNextPendingEvent
      drain := none
      collTraceDump_ := d.getD s.collTraceDump_
      undefined := s.undefined || d.isNone
      left := s.left ++ [coll]
      ended := s.ended ++ [coll] } : Dumped).Inv config := by
  have hevent : s.phase.event = some coll := by
    rw [hphase]
    rfl
  have hended : (s.ended ++ [coll]).Sublist (s.left ++ [coll]) :=
    h.ended.append (List.Sublist.refl _)
  cases hacc : s.accepted coll with
  | true =>
    obtain ⟨hnofull, hsize⟩ := hkeeps coll hphase hacc
    have hfull : n ≠ config.pendingCollSize + 1 := by
      rintro rfl
      exact hnofull hdrain
    have hcurrent : s.collTraceDump_.currentColl = some coll := by
      rw [h.current, hphase]
      simp [startedColl, Option.filter, hacc]
    obtain ⟨past, hevict, hpast⟩ := evict_window hsize (s.ended.filter s.accepted) coll
    have hsome : d = some { s.collTraceDump_ with
        pastColls := past ++ [coll]
        currentColl := none } := by
      rw [hd, if_neg hfull, CollTraceDump.finish, if_neg (by simp [hcurrent]), h.past, hevict]
      rfl
    subst hsome
    rw [Option.isNone_some, Bool.or_false]
    refine h.leave hevent ⟨rfl, ?_⟩ hended ?_ none
    · have hqueued := h.queued
      rw [hcurrent, track, hevent] at hqueued
      simpa [List.filter_cons, hacc] using hqueued
    · have hone : [coll].filter s.accepted = [coll] := by simp [hacc]
      rw [List.filter_append, hone]
      exact hpast
  | false =>
    have hsame : d = some s.collTraceDump_ := by
      rw [hd, CollTraceDump.finish, if_pos (h.not_queued hacc).2, ite_self]
    subst hsame
    rw [Option.isNone_some, Bool.or_false]
    refine h.leave hevent (h.behind hevent hacc) hended ?_ none
    have hone : [coll].filter s.accepted = [] := by simp [hacc]
    rw [List.filter_append, hone, List.append_nil]
    exact h.past

theorem Inv.step (h : s.Inv config) (hstep : Step config maxPendingQueueSize s op s')
    (hkeeps : s.Keeps config maxPendingQueueSize op) : s'.Inv config := by
  cases hstep with
  | recordCollective => exact h.recordCollective hkeeps
  | trigger coll state waitOk hcoll => exact h.trigger hcoll state waitOk hkeeps
  | take coll rest hphase hqueue => exact h.take hphase hqueue
  | poll r phase hphase => exact h.poll hphase hkeeps
  | lock r _ _ => exact h.move rfl rfl h.current rfl _
  | read r n coll rest _ _ hqueue =>
    refine ⟨h.distinct, h.bound, h.fresh, ?_, h.current, h.past, h.ended, h.defined⟩
    have hqueued := h.queued
    rw [hqueue] at hqueued
    rw [← List.append_assoc, List.append_assoc]
    exact hqueued
  | dumpRead n _ _ => exact h.move rfl rfl h.current rfl none
  | afterCollKernelStart coll n hphase hdrain hstop =>
    exact h.afterCollKernelStart hphase hdrain hstop hkeeps
  | afterCollKernelEnd coll n d hphase hdrain hstop hd =>
    exact h.afterCollKernelEnd hphase hdrain hd hkeeps

theorem Reachable.inv (h : Reachable config maxPendingQueueSize
    (Keeps config maxPendingQueueSize) s) : s.Inv config := by
  induction h with
  | init => exact inv_init
  | step _ hstep hkeeps ih => exact ih.step hstep hkeeps

/-! ### The dump is never stuck -/

/-- The collectives that ended are recorded in that order, no record is there twice, and the thread
leaves nothing behind that the next collective would be compared with. -/
structure Sound (config : CommDumpConfig) (s : Dumped) : Prop where
  defined : s.undefined = false
  recorded : s.collTraceDump_.pastColls =
    window config.pastCollSize (s.ended.filter s.accepted)
  distinct : (s.collTraceDump_.pastColls ++ s.collTraceDump_.currentColl.toList ++
    s.collTraceDump_.pendingColls).Nodup
  passed : ∀ e ∈ s.left, s.collTraceDump_.currentColl ≠ some e ∧
    s.collTraceDump_.pendingColls.head? ≠ some e

theorem Inv.sublist (h : s.Inv config) :
    (s.collTraceDump_.pastColls ++ (s.collTraceDump_.currentColl.toList ++
      s.collTraceDump_.pendingColls)).Sublist (s.left ++ s.track) := by
  apply List.Sublist.append
  · rw [h.past]
    exact (window_sublist _ _).trans (List.filter_sublist.trans h.ended)
  · have hsub := List.sublist_append_left
      (s.collTraceDump_.currentColl.toList ++ s.collTraceDump_.pendingColls) s.newPendingColls_
    rw [h.queued] at hsub
    exact hsub.trans List.filter_sublist

theorem Inv.sound (h : s.Inv config) : s.Sound config where
  defined := h.defined
  recorded := h.past
  distinct := by
    rw [List.append_assoc]
    exact h.distinct.sublist h.sublist
  passed e he := by
    have hmem : ∀ f ∈ s.collTraceDump_.currentColl.toList ++ s.collTraceDump_.pendingColls,
        f ≠ e := by
      intro f hf hfe
      have hqueue : f ∈ s.track := by
        have := List.mem_append_left s.newPendingColls_ hf
        rw [h.queued] at this
        exact List.mem_of_mem_filter this
      rw [hfe] at hqueue
      exact (List.nodup_append.mp h.distinct).2.2 e he e hqueue rfl
    constructor
    · intro hc
      exact hmem e (by simp [hc]) rfl
    · intro hc
      exact hmem e (List.mem_append_right _ (List.mem_of_head? hc)) rfl

theorem copy_records (d : CollTraceDump) :
    d.copy.pastColls ++ d.copy.currentColl.toList ++ d.copy.pendingColls =
      d.pastColls ++ d.currentColl.toList ++ d.pendingColls := by
  unfold CollTraceDump.copy
  split
  · rename_i front rest hcurrent hpending
    rw [hcurrent, hpending]
    simp
  · rfl

/-- As long as no collective is dropped that the plugin has accepted, the dump records what the
thread observes. -/
theorem records_not_stuck (h : Reachable config maxPendingQueueSize
    (Keeps config maxPendingQueueSize) s) :
    s.Sound config ∧ (s.collTraceDump_.copy.pastColls ++
      s.collTraceDump_.copy.currentColl.toList ++ s.collTraceDump_.copy.pendingColls).Nodup := by
  refine ⟨h.inv.sound, ?_⟩
  rw [copy_records]
  exact h.inv.sound.distinct

/-- The defaults of `CommDumpConfig`. -/
def defaultConfig : CommDumpConfig := ⟨20, 1024⟩

theorem records_not_stuck_one :
    ∃ s, Reachable defaultConfig 1024 (Keeps defaultConfig 1024) s ∧
      s.collTraceDump_.pastColls = [0] ∧ s.Sound defaultConfig := by
  have h0 : Reachable defaultConfig 1024 (Keeps defaultConfig 1024) init := .init
  have h1 := h0.step .recordCollective nofun
  have h2 := h1.step (.trigger 0 .BeforeEnqueueKernel true rfl) trivial
  have h3 := h2.step (.trigger 0 .AfterEnqueueKernel true rfl)
    fun _ _ _ => ⟨fun _ => rfl, fun _ hfull => absurd hfull (by decide)⟩
  have h4 := h3.step (.take 0 [] rfl rfl) trivial
  have h5 := h4.step (.poll .reached (.collStarted 0) rfl) trivial
  have h6 := h5.step (.lock .thread rfl fun _ => ⟨0, .inl rfl⟩) trivial
  have h7 := h6.step (.read .thread 0 0 [] rfl (by decide) rfl) trivial
  have h8 := h7.step (.afterCollKernelStart 0 1 rfl rfl (.inl rfl)) fun _ _ _ => by decide
  have h9 := h8.step (.poll .reached (.collEnded 0) rfl) trivial
  have h10 := h9.step (.lock .thread rfl fun _ => ⟨0, .inr rfl⟩) trivial
  have h11 := h10.step (.afterCollKernelEnd 0 0 _ rfl rfl (.inl rfl) rfl)
    fun _ _ _ => ⟨by decide, by decide⟩
  exact ⟨_, h11, rfl, (records_not_stuck h11).1⟩

/-- After an error of one wait, the next collective starts and ends and is never recorded. -/
theorem stuck_two :
    ∃ s, Reachable defaultConfig 1024 (fun _ _ => True) s ∧ s.ended = [1] ∧
      s.accepted 1 = true ∧ s.collTraceDump_.pastColls = [] ∧
      s.collTraceDump_.pendingColls.head? = some 0 ∧ 0 ∈ s.left ∧ ¬s.Sound defaultConfig := by
  have h0 : Reachable defaultConfig 1024 (fun _ _ => True) init := .init
  have h1 := h0.step .recordCollective trivial
  have h2 := h1.step (.trigger 0 .BeforeEnqueueKernel true rfl) trivial
  have h3 := h2.step (.trigger 0 .AfterEnqueueKernel true rfl) trivial
  have h4 := h3.step (.take 0 [] rfl rfl) trivial
  have h5 := h4.step (.poll .error .getNextPendingEvent rfl) trivial
  have h6 := h5.step .recordCollective trivial
  have h7 := h6.step (.trigger 1 .BeforeEnqueueKernel true rfl) trivial
  have h8 := h7.step (.trigger 1 .AfterEnqueueKernel true rfl) trivial
  have h9 := h8.step (.take 1 [] rfl rfl) trivial
  have h10 := h9.step (.poll .reached (.collStarted 1) rfl) trivial
  have h11 := h10.step (.lock .thread rfl fun _ => ⟨1, .inl rfl⟩) trivial
  have h12 := h11.step (.read .thread 0 0 [1] rfl (by decide) rfl) trivial
  have h13 := h12.step (.read .thread 1 1 [] rfl (by decide) rfl) trivial
  have h14 := h13.step (.afterCollKernelStart 1 2 rfl rfl (.inl rfl)) trivial
  have h15 := h14.step (.poll .reached (.collEnded 1) rfl) trivial
  have h16 := h15.step (.lock .thread rfl fun _ => ⟨1, .inr rfl⟩) trivial
  have h17 := h16.step (.afterCollKernelEnd 1 0 _ rfl rfl (.inl rfl) rfl) trivial
  refine ⟨_, h17, rfl, rfl, rfl, rfl, List.mem_cons_self, ?_⟩
  intro hsound
  exact (hsound.passed 0 List.mem_cons_self).2 rfl

end Dumped
end TorchComms.CollTrace
