import TorchComms.Ncclx.Scan

/-! # What `finalize` reports

A garbage collection takes completed works off the fronts of the queues, and it reports a failure
only of a work that is at the front of its queue. `finalize` takes the status found last for the
status of all queues: it is right about success as long as the queue scanned last does not finish
before another one.
-/
namespace TorchComms.Ncclx

/-! ### The verdict of a scan -/

variable {os : List (Option WorkStatus)} {o : Option WorkStatus} {last : WorkStatus}

theorem verdict_failed
    (ho : o ∈ os) (h : (o.getD .COMPLETED).failed) : (verdict os last).failed := by
  induction os generalizing last with
  | nil => cases ho
  | cons p rest ih =>
    rw [verdict]
    split
    · assumption
    · rename_i hp
      cases ho with
      | head => exact absurd h hp
      | tail _ ho => exact ih ho

theorem verdict_concat
    (h : ∀ p ∈ os, (p.getD .COMPLETED).failed = false) :
    verdict (os ++ [o]) last = o.getD .COMPLETED := by
  induction os generalizing last with
  | nil =>
    rw [List.nil_append, verdict]
    split <;> rfl
  | cons p rest ih =>
    rw [List.cons_append, verdict, h p (List.mem_cons_self ..), if_neg Bool.false_ne_true]
    exact ih fun q hq => h q (List.mem_cons_of_mem p hq)

variable {m : List (ℕ × List ℕ)}

theorem ne_completed_of_mem_stops {events : Events} {works : ℕ → Tracked}
    {st : WorkStatus} (h : some st ∈ stops events works m) : st ≠ .COMPLETED := by
  obtain ⟨p, _, hp⟩ := List.mem_map.mp h
  exact stop_ne_completed hp

/-! ### Pushing a work -/

theorem flat_push (stream w : ℕ) (m : List (ℕ × List ℕ)) :
    (flat (push stream w m)).Perm (w :: flat m) := by
  induction m with
  | nil => exact List.Perm.refl _
  | cons p rest ih =>
    obtain ⟨s, q⟩ := p
    rw [push]
    split
    · simp only [flat, List.flatMap_cons, List.append_assoc]
      exact List.perm_middle
    · simp only [flat, List.flatMap_cons] at ih ⊢
      exact (ih.append_left q).trans List.perm_middle

theorem mem_keys_push {stream w k : ℕ}
    (h : k ∈ (push stream w m).map Prod.fst) : k = stream ∨ k ∈ m.map Prod.fst := by
  induction m with
  | nil => exact .inl (List.mem_singleton.mp h)
  | cons p rest ih =>
    obtain ⟨s, q⟩ := p
    rw [push] at h
    split at h
    · exact .inr h
    · rw [List.map_cons, List.mem_cons] at h ⊢
      rcases h with h | h
      · exact .inr (.inl h)
      · exact (ih h).imp id .inr

theorem nodup_keys_push (stream w : ℕ) (h : (m.map Prod.fst).Nodup) :
    ((push stream w m).map Prod.fst).Nodup := by
  induction m with
  | nil => exact List.nodup_singleton _
  | cons p rest ih =>
    obtain ⟨s, q⟩ := p
    rw [push]
    split
    · exact h
    · rename_i hne
      rw [List.map_cons, List.nodup_cons] at h ⊢
      constructor
      · intro hmem
        rcases mem_keys_push hmem with heq | hmem
        · exact hne heq
        · exact h.1 hmem
      · exact ih h.2

theorem nonempty_push {stream w : ℕ} (h : ∀ p ∈ m, p.2 ≠ []) : ∀ p ∈ push stream w m, p.2 ≠ [] := by
  induction m with
  | nil =>
    intro p hp
    cases List.mem_singleton.mp hp
    exact List.cons_ne_nil _ _
  | cons r rest ih =>
    obtain ⟨s, q⟩ := r
    have hrest : ∀ p ∈ rest, p.2 ≠ [] := fun p hp => h p (List.mem_cons_of_mem _ hp)
    rw [push]
    split
    · intro p hp
      cases hp with
      | head => exact List.append_ne_nil_of_right_ne_nil _ (List.cons_ne_nil _ _)
      | tail _ hp => exact hrest p hp
    · intro p hp
      cases hp with
      | head => exact h _ (List.mem_cons_self ..)
      | tail _ hp => exact ih hrest p hp

namespace TorchWorkNCCLXQueue

variable {events : Events} {s t : TorchWorkNCCLXQueue}

/-! ### The invariant -/

/-- Every work ever enqueued is in one place of one queue, or it has completed. -/
structure Coherent (s : TorchWorkNCCLXQueue) : Prop where
  keys : (s.stream_work_queues_.map Prod.fst).Nodup
  nonempty : ∀ p ∈ s.stream_work_queues_, p.2 ≠ []
  nodup : (flat s.stream_work_queues_).Nodup
  bounded : ∀ w ∈ flat s.stream_work_queues_, w < s.enqueued
  settled : ∀ w < s.enqueued, w ∈ flat s.stream_work_queues_ ∨ s.status w = .COMPLETED

theorem Coherent.enqueueWork (h : s.Coherent) (timeout_ms : ℤ) {stream : ℕ}
    {order : List (ℕ × List ℕ)}
    (horder : order.Perm (push stream s.enqueued s.stream_work_queues_)) :
    (s.enqueueWork timeout_ms order).Coherent := by
  have hflat : (flat order).Perm (s.enqueued :: flat s.stream_work_queues_) :=
    (horder.flatMap_right Prod.snd).trans (flat_push stream s.enqueued s.stream_work_queues_)
  constructor
  · apply ((horder.map Prod.fst).nodup_iff).mpr
    exact nodup_keys_push stream s.enqueued h.keys
  · exact fun p hp => nonempty_push h.nonempty p (horder.mem_iff.mp hp)
  · apply hflat.nodup_iff.mpr
    rw [List.nodup_cons]
    exact ⟨fun hmem => absurd (h.bounded _ hmem) (Nat.lt_irrefl _), h.nodup⟩
  · intro w hw
    rcases List.mem_cons.mp (hflat.mem_iff.mp hw) with rfl | hw
    · exact Nat.lt_succ_self _
    · exact Nat.lt_succ_of_lt (h.bounded w hw)
  · intro w hw
    by_cases hnew : w = s.enqueued
    · subst hnew
      exact .inl (hflat.mem_iff.mpr (List.mem_cons_self ..))
    · rcases h.settled w (by simp only [TorchWorkNCCLXQueue.enqueueWork] at hw; omega) with hw | hw
      · exact .inl (hflat.mem_iff.mpr (List.mem_cons_of_mem _ hw))
      · right
        have hsame : (s.enqueueWork timeout_ms order).works w = s.works w :=
          Function.update_of_ne hnew _ _
        unfold status
        rwa [hsame]

theorem Coherent.collected (h : s.Coherent) (events : Events) :
    Collected events s.works s.stream_work_queues_ .COMPLETED
      (collect events s.stream_work_queues_ s.works .COMPLETED) :=
  collect_spec rfl h.nonempty h.nodup

theorem Coherent.garbageCollect (h : s.Coherent) (events : Events) :
    (s.garbageCollect events).2.Coherent := by
  have hc := h.collected events
  constructor
  · exact hc.removed.keys_sublist.nodup h.keys
  · exact hc.removed.nonempty h.nonempty
  · exact hc.removed.flat_sublist.nodup h.nodup
  · exact fun w hw => h.bounded w (hc.removed.flat_sublist.subset hw)
  · intro w hw
    by_cases hmem : w ∈ flat s.stream_work_queues_
    · exact hc.removed.mem_or_completed hmem
    · right
      have hdone := (h.settled w hw).resolve_left hmem
      unfold status at hdone ⊢
      have hsame : (s.garbageCollect events).2.works w = s.works w := hc.others w hmem
      rw [hsame, hdone]

theorem coherent_empty : empty.Coherent := by
  constructor <;> simp [empty, flat]

theorem Reachable.coherent (h : Reachable events s) : s.Coherent := by
  induction h with
  | refl => exact coherent_empty
  | tail _ hstep ih =>
    cases hstep with
    | enqueueWork timeout_ms stream horder => exact ih.enqueueWork timeout_ms horder
    | garbageCollect => exact ih.garbageCollect events

/-! ### The rounds of `finalize` -/

/-- The states in which `finalize` comes to the head of its loop. -/
inductive Rounds (events : Events) (s : TorchWorkNCCLXQueue) : TorchWorkNCCLXQueue → Prop
  | start : Rounds events s s
  | again {t : TorchWorkNCCLXQueue} (h : Rounds events s t) (hne : t.stream_work_queues_ ≠ [])
      (hundecided : decided (t.garbageCollect events).1 = false) :
      Rounds events s (t.garbageCollect events).2

theorem Rounds.coherent (h : Rounds events s t) (hs : s.Coherent) : t.Coherent := by
  induction h with
  | start => exact hs
  | again _ _ _ ih => exact ih.garbageCollect events

theorem Rounds.enqueued (h : Rounds events s t) : t.enqueued = s.enqueued := by
  induction h with
  | start => rfl
  | again _ _ _ ih => exact ih

variable {status : WorkStatus} {rounds : ℕ}

theorem finalizeLoop_again (hne : t.stream_work_queues_ ≠ [])
    (hundecided : decided (t.garbageCollect events).1 = false) :
    t.finalizeLoop events (rounds + 1) status =
      (t.garbageCollect events).2.finalizeLoop events rounds (t.garbageCollect events).1 := by
  rw [finalizeLoop, if_neg hne]
  exact if_neg (by rw [hundecided]; exact Bool.false_ne_true)

theorem finalizeLoop_decided (hne : t.stream_work_queues_ ≠ [])
    (hdecided : decided (t.garbageCollect events).1) :
    t.finalizeLoop events (rounds + 1) status = some (t.garbageCollect events) := by
  rw [finalizeLoop, if_neg hne]
  exact if_pos hdecided

theorem Rounds.loop (h : Rounds events s t) : ∃ k status, ∀ rounds,
    s.finalizeLoop events (k + rounds) .COMPLETED = t.finalizeLoop events rounds status := by
  induction h with
  | start => exact ⟨0, .COMPLETED, fun rounds => by rw [Nat.zero_add]⟩
  | @again t _ hne hundecided ih =>
    obtain ⟨k, status, hloop⟩ := ih
    use k + 1, (t.garbageCollect events).1
    intro rounds
    rw [Nat.add_assoc, Nat.add_comm 1 rounds, hloop, finalizeLoop_again hne hundecided]

/-- How `finalize` ends: there is nothing left, or a round has decided. -/
def Ends (events : Events) (t : TorchWorkNCCLXQueue) (r : WorkStatus × TorchWorkNCCLXQueue) :
    Prop :=
  (t.stream_work_queues_ = [] ∧ r.1.failed = false ∧ r.2 = t) ∨
    (t.stream_work_queues_ ≠ [] ∧ r = t.garbageCollect events)

theorem not_failed_of_undecided (h : decided status = false) : status.failed = false := by
  cases status with
  | NOT_STARTED | INPROGRESS => rfl
  | COMPLETED | TIMEDOUT | ERROR => cases h

theorem Rounds.ends {r : WorkStatus × TorchWorkNCCLXQueue}
    (h : Rounds events s t) (hstatus : status.failed = false)
    (hloop : t.finalizeLoop events rounds status = some r) :
    ∃ u, Rounds events s u ∧ Ends events u r := by
  induction rounds generalizing t status with
  | zero => cases hloop
  | succ rounds ih =>
    by_cases hne : t.stream_work_queues_ = []
    · rw [finalizeLoop, if_pos hne] at hloop
      cases hloop
      exact ⟨t, h, .inl ⟨hne, hstatus, rfl⟩⟩
    · cases hdecided : decided (t.garbageCollect events).1 with
      | true =>
        rw [finalizeLoop_decided hne hdecided] at hloop
        cases hloop
        exact ⟨t, h, .inr ⟨hne, rfl⟩⟩
      | false =>
        rw [finalizeLoop_again hne hdecided] at hloop
        exact ih (h.again hne hdecided) (not_failed_of_undecided hdecided) hloop

variable {s' : TorchWorkNCCLXQueue} {st : WorkStatus}

theorem finalize_ends
    (h : s.finalize events rounds = some (st, s')) :
    ∃ t u, Rounds events s t ∧ Ends events t (st, u) ∧ s' = u.clear := by
  obtain ⟨r, hloop, hr⟩ := Option.map_eq_some_iff.mp h
  cases hr
  obtain ⟨t, hrounds, hends⟩ := Rounds.start.ends rfl hloop
  exact ⟨t, r.2, hrounds, hends, rfl⟩

/-! ### What is asked of `finalize` -/

/-- A garbage collection takes nothing but completed works off the fronts of the queues. -/
def CollectsCompleted (events : Events) (s : TorchWorkNCCLXQueue) : Prop :=
  ∀ stream, ∃ removed, s.queue stream = removed ++ (s.garbageCollect events).2.queue stream ∧
    ∀ w ∈ removed, (s.garbageCollect events).2.status w = .COMPLETED

/-- The work at the front of some stream's queue has the status. -/
def AtFront (s : TorchWorkNCCLXQueue) (st : WorkStatus) : Prop :=
  ∃ stream w, (s.queue stream).head? = some w ∧ s.status w = st

/-- `finalize` reports success only when every work ever enqueued has completed. -/
def SuccessMeansDone (events : Events) (s : TorchWorkNCCLXQueue) : Prop :=
  ∀ rounds s', s.finalize events rounds = some (.COMPLETED, s') →
    ∀ w < s.enqueued, s'.status w = .COMPLETED

/-- When the queue scanned last runs out of works, so does every other queue, or one of them stops
at a failed work. -/
def FinishesLast (events : Events) (s : TorchWorkNCCLXQueue) : Prop :=
  ∀ front, stops events s.works s.stream_work_queues_ = front ++ [none] →
    (∀ o ∈ front, o = none) ∨ ∃ st, some st ∈ front ∧ st.failed

theorem Coherent.collectsCompleted (h : s.Coherent) : s.CollectsCompleted events := by
  intro stream
  exact (h.collected events).removed.lookup h.keys stream

theorem lookup_of_mem {m : List (ℕ × List ℕ)} {p : ℕ × List ℕ} (hp : p ∈ m)
    (hkeys : (m.map Prod.fst).Nodup) : m.lookup p.1 = some p.2 := by
  induction m with
  | nil => cases hp
  | cons r rest ih =>
    rw [List.map_cons, List.nodup_cons] at hkeys
    cases hp with
    | head => rw [List.lookup_cons_self]
    | tail _ hp =>
      have hne : p.1 ≠ r.1 := by
        intro heq
        exact hkeys.1 (heq ▸ List.mem_map_of_mem hp)
      rw [List.lookup_cons, beq_false_of_ne hne]
      exact ih hp hkeys.2

theorem Coherent.atFront (h : s.Coherent) (hfailed : (s.garbageCollect events).1.failed) :
    (s.garbageCollect events).2.AtFront (s.garbageCollect events).1 := by
  obtain ⟨p, hp, hhead⟩ := (h.collected events).failed hfailed
  obtain ⟨w, hw, hstatus⟩ := Option.map_eq_some_iff.mp hhead
  use p.1, w
  constructor
  · have hlookup := lookup_of_mem (m := (s.garbageCollect events).2.stream_work_queues_) hp
      (h.garbageCollect events).keys
    unfold queue
    rw [hlookup, Option.getD_some, hw]
  · exact hstatus

theorem finalize_atFront
    (hs : s.Coherent) (h : s.finalize events rounds = some (st, s')) (hfailed : st.failed) :
    ∃ t, Rounds events s t ∧ s' = (t.garbageCollect events).2.clear ∧
      (t.garbageCollect events).2.AtFront st := by
  obtain ⟨t, u, hrounds, hends, rfl⟩ := finalize_ends h
  rcases hends with ⟨_, hok, _⟩ | ⟨_, hr⟩
  · rw [hok] at hfailed
    cases hfailed
  · obtain ⟨rfl, rfl⟩ := Prod.mk.inj hr
    exact ⟨t, hrounds, rfl, (hrounds.coherent hs).atFront hfailed⟩

/-! ### Success -/

theorem Coherent.emptied (h : s.Coherent) (hlast : s.FinishesLast events)
    (hne : s.stream_work_queues_ ≠ []) (hst : (s.garbageCollect events).1 = .COMPLETED) :
    (s.garbageCollect events).2.stream_work_queues_ = [] := by
  have hc := h.collected events
  have hverdict : verdict (stops events s.works s.stream_work_queues_) .COMPLETED = .COMPLETED :=
    hc.last_eq.symm.trans hst
  have hok : ∀ o ∈ stops events s.works s.stream_work_queues_,
      (o.getD .COMPLETED).failed = false := by
    intro o ho
    by_contra hfailed
    have hfail : (verdict (stops events s.works s.stream_work_queues_) .COMPLETED).failed :=
      verdict_failed ho (by simpa using hfailed)
    rw [hverdict] at hfail
    cases hfail
  obtain ⟨front, o, hstops⟩ : ∃ front o,
      stops events s.works s.stream_work_queues_ = front ++ [o] := by
    apply (List.eq_nil_or_concat' _).resolve_left
    simpa [stops] using hne
  have ho : o = none := by
    rw [hstops, verdict_concat fun p hp => hok p (hstops ▸ List.mem_append_left _ hp)] at hverdict
    cases o with
    | none => rfl
    | some st =>
      have hmem : some st ∈ stops events s.works s.stream_work_queues_ := by simp [hstops]
      exact absurd hverdict (ne_completed_of_mem_stops hmem)
  subst ho
  apply hc.cleared
  intro o ho
  rcases hlast front hstops with hall | ⟨st, hmem, hfailed⟩
  · rw [hstops, List.mem_append, List.mem_singleton] at ho
    exact ho.elim (hall o) id
  · have hst := hok (some st) (hstops ▸ List.mem_append_left _ hmem)
    rw [Option.getD_some, hfailed] at hst
    cases hst

theorem Coherent.all_completed (h : s.Coherent) (hempty : s.stream_work_queues_ = []) :
    ∀ w < s.enqueued, s.status w = .COMPLETED := by
  intro w hw
  apply (h.settled w hw).resolve_left
  simp [hempty, flat]

theorem successMeansDone_of_finishesLast (hs : s.Coherent)
    (hlast : ∀ t, Rounds events s t → t.FinishesLast events) : s.SuccessMeansDone events := by
  intro rounds s' h
  obtain ⟨t, u, hrounds, hends, rfl⟩ := finalize_ends h
  have ht := hrounds.coherent hs
  rw [← hrounds.enqueued]
  rcases hends with ⟨hempty, _, rfl⟩ | ⟨hne, hr⟩
  · exact ht.all_completed hempty
  · obtain ⟨hst, rfl⟩ := Prod.mk.inj hr
    apply (ht.garbageCollect events).all_completed
    exact ht.emptied (hlast t hrounds) hne hst.symm

/-- A queue that finishes last in the scan, but before another one, passes for all of them. -/
theorem Coherent.lost (h : s.Coherent) (hlast : ¬ s.FinishesLast events) :
    (s.garbageCollect events).1 = .COMPLETED ∧
      ∃ w < s.enqueued, (s.garbageCollect events).2.status w ≠ .COMPLETED := by
  have hc := h.collected events
  unfold FinishesLast at hlast
  push Not at hlast
  obtain ⟨front, hstops, ⟨o, ho, hne⟩, hok⟩ := hlast
  have hfront : ∀ p ∈ front, (p.getD .COMPLETED).failed = false := by
    intro p hp
    cases p with
    | none => rfl
    | some st => simpa using hok st hp
  have hresult : (collect events s.stream_work_queues_ s.works .COMPLETED).last_status =
      .COMPLETED := by
    rw [hc.last_eq, hstops, verdict_concat hfront, Option.getD_none]
  constructor
  · exact hresult
  · obtain ⟨st, rfl⟩ := Option.ne_none_iff_exists'.mp hne
    have hmem : some st ∈ stops events s.works s.stream_work_queues_ :=
      hstops ▸ List.mem_append_left _ ho
    obtain ⟨w, hw, hstatus⟩ := hc.stuck (by rw [hresult]; rfl) st hmem
    use w
    constructor
    · exact h.bounded w (hc.removed.flat_sublist.subset hw)
    · intro hdone
      exact ne_completed_of_mem_stops hmem (hstatus.symm.trans hdone)

theorem finishesLast_of_successMeansDone (hs : s.Coherent) (h : s.SuccessMeansDone events)
    (hrounds : Rounds events s t) : t.FinishesLast events := by
  by_contra hlast
  have ht := hrounds.coherent hs
  obtain ⟨hst, w, hw, hdone⟩ := ht.lost hlast
  have hne : t.stream_work_queues_ ≠ [] := by
    intro hempty
    apply hlast
    intro front hstops
    simp [hempty, stops] at hstops
  obtain ⟨k, status, hloop⟩ := hrounds.loop
  have hfinal : s.finalize events (k + 1) =
      some (.COMPLETED, (t.garbageCollect events).2.clear) := by
    rw [finalize, hloop, finalizeLoop_decided hne (by rw [hst]; rfl), Option.map_some, hst]
  rw [hrounds.enqueued] at hw
  exact hdone (h (k + 1) _ hfinal w hw)

/-- After any calls of `enqueueWork` and `garbageCollect`, every round removes completed works only
and in order, a failure is reported of a work at the front of a queue, and `finalize` reports
success rightly if and only if in every round the queue scanned last finishes last. -/
theorem finalize_iff_finishesLast (hs : Reachable events s) :
    (∀ t, Rounds events s t → t.CollectsCompleted events ∧
      ((t.garbageCollect events).1.failed →
        (t.garbageCollect events).2.AtFront (t.garbageCollect events).1)) ∧
    (∀ rounds st s', s.finalize events rounds = some (st, s') → st.failed →
      ∃ t, Rounds events s t ∧ s' = (t.garbageCollect events).2.clear ∧
        (t.garbageCollect events).2.AtFront st) ∧
    (s.SuccessMeansDone events ↔ ∀ t, Rounds events s t → t.FinishesLast events) := by
  have hcoherent := hs.coherent
  refine ⟨fun t ht => ⟨?_, ?_⟩, fun rounds st s' => ?_, fun h t => ?_, ?_⟩
  · exact (ht.coherent hcoherent).collectsCompleted
  · exact (ht.coherent hcoherent).atFront
  · exact finalize_atFront hcoherent
  · exact finishesLast_of_successMeansDone hcoherent h
  · exact successMeansDone_of_finishesLast hcoherent

/-! ### Two streams -/

/-- An event that has completed once stays complete. -/
def Persistent (events : Events) : Prop :=
  ∀ w k k', k ≤ k' →
    ((events w k).start_status = .cudaSuccess → (events w k').start_status = .cudaSuccess) ∧
    ((events w k).end_status = .cudaSuccess → (events w k').end_status = .cudaSuccess)

/-- Work 0 is on stream 0 and work 1 on stream 1, and the map is iterated in this order. -/
def twoStreams : TorchWorkNCCLXQueue :=
  (empty.enqueueWork 1000 [(0, [0])]).enqueueWork 1000 [(0, [0]), (1, [1])]

theorem reachable_twoStreams (events : Events) : Reachable events twoStreams := by
  have hfirst : Step events empty (empty.enqueueWork 1000 [(0, [0])]) :=
    .enqueueWork empty 1000 0 (List.Perm.refl _)
  apply (Relation.ReflTransGen.single hfirst).tail
  exact .enqueueWork _ 1000 1 (List.Perm.refl _)

def bothDone : Events := fun _ _ => ⟨.cudaSuccess, 0, .cudaSuccess, 0⟩

/-- All works start at once, and work 0 never ends. -/
def firstHangs : Events := fun w _ =>
  ⟨.cudaSuccess, 0, if w = 0 then .cudaErrorNotReady else .cudaSuccess, 0⟩

theorem finalize_iff_finishesLast_bothDone : twoStreams.SuccessMeansDone bothDone := by
  apply (finalize_iff_finishesLast (reachable_twoStreams bothDone)).2.2.mpr
  intro t ht
  have hround : (twoStreams.garbageCollect bothDone).1 = .COMPLETED := by decide
  have heq : t = twoStreams := by
    induction ht with
    | start => rfl
    | again _ _ hundecided ih =>
      subst ih
      rw [hround] at hundecided
      cases hundecided
  subst heq
  intro front hstops
  left
  have hnone : stops bothDone twoStreams.works twoStreams.stream_work_queues_ = [none, none] := by
    decide
  rw [hnone] at hstops
  intro o ho
  have hmem : o ∈ front ++ [none] := List.mem_append_left _ ho
  rw [← hstops] at hmem
  simpa using hmem

/-- Work 1 is scanned last and completes, so that `finalize` reports success and drops work 0. -/
theorem success_over_unfinished : Persistent firstHangs ∧ Reachable firstHangs twoStreams ∧
    twoStreams.finalize firstHangs 1 =
      some (.COMPLETED, (twoStreams.garbageCollect firstHangs).2.clear) ∧
    (twoStreams.garbageCollect firstHangs).2.clear.status 0 = .INPROGRESS ∧
    ¬ twoStreams.SuccessMeansDone firstHangs := by
  have hfinal : twoStreams.finalize firstHangs 1 =
      some (.COMPLETED, (twoStreams.garbageCollect firstHangs).2.clear) := rfl
  have hstatus : (twoStreams.garbageCollect firstHangs).2.clear.status 0 = .INPROGRESS := by decide
  refine ⟨fun _ _ _ _ => ⟨id, id⟩, reachable_twoStreams firstHangs, hfinal, hstatus, fun h => ?_⟩
  have hdone := h 1 _ hfinal 0 (by decide)
  rw [hstatus] at hdone
  cases hdone

end TorchWorkNCCLXQueue
end TorchComms.Ncclx
