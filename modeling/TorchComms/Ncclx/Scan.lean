import TorchComms.Ncclx.TorchWork

/-! # What a scan of the queues finds

The works before the first one that does not complete leave a queue, and the status of that one is
where the queue stops. The result of a garbage collection depends on these stops alone: it is the
first failure among them, else the stop of the queue scanned last.
-/
namespace TorchComms.Ncclx

variable {events : Events} {works : ℕ → Tracked} {last : WorkStatus}

/-- The status that the next check of the work finds. -/
def Tracked.next (x : Tracked) (events : ℕ → EventReading) : WorkStatus :=
  (x.check events).work.state_

/-- The status of the first work of the queue that does not complete. -/
def stop (events : Events) (works : ℕ → Tracked) : List ℕ → Option WorkStatus
  | [] => none
  | w :: rest =>
    if (works w).next (events w) = .COMPLETED then stop events works rest
    else some ((works w).next (events w))

variable {q : List ℕ} {d : Scan (List ℕ)} {stream : ℕ}
  {works' : ℕ → Tracked} {st : WorkStatus} {w : ℕ}

theorem stop_congr (h : ∀ w ∈ q, works' w = works w) :
    stop events works' q = stop events works q := by
  induction q with
  | nil => rfl
  | cons w rest ih =>
    have hrest := ih fun v hv => h v (List.mem_cons_of_mem w hv)
    simp only [stop, h w (List.mem_cons_self ..), hrest]

theorem stop_ne_completed (h : stop events works q = some st) : st ≠ .COMPLETED := by
  induction q with
  | nil => cases h
  | cons w rest ih =>
    unfold stop at h
    split at h
    · exact ih h
    · rename_i hne
      cases h
      exact hne

/-- The queue lost completed works off its front, and stops at the work that is there now. -/
structure Drained (events : Events) (works : ℕ → Tracked) (q : List ℕ) (last : WorkStatus)
    (d : Scan (List ℕ)) : Prop where
  removed : ∃ popped, q = popped ++ d.left ∧
    ∀ w ∈ popped, (d.works w).work.state_ = .COMPLETED
  front : (d.left.head?.map fun w => (d.works w).work.state_) = stop events works q
  last_eq : q ≠ [] → d.last_status = (stop events works q).getD .COMPLETED
  others : ∀ w, w ∉ q → d.works w = works w

/-- The works after a check of one of them. -/
def checked (events : Events) (works : ℕ → Tracked) (w : ℕ) : ℕ → Tracked :=
  Function.update works w ((works w).check (events w))

theorem checked_self (w : ℕ) : ((checked events works w) w).work.state_ =
    (works w).next (events w) := by
  rw [checked, Function.update_self, Tracked.next]

theorem checked_of_ne {v w : ℕ} (h : v ≠ w) : checked events works w v = works v :=
  Function.update_of_ne h _ _

theorem drain_of_completed (rest : List ℕ) (h : (works w).next (events w) = .COMPLETED) :
    drain events (w :: rest) works last = drain events rest (checked events works w) .COMPLETED := by
  rw [drain]
  exact if_pos h

theorem drain_of_stop (rest : List ℕ) (h : (works w).next (events w) ≠ .COMPLETED) :
    drain events (w :: rest) works last =
      ⟨w :: rest, checked events works w, (works w).next (events w)⟩ := by
  rw [drain]
  exact if_neg h

theorem drain_spec (hnodup : q.Nodup) :
    Drained events works q last (drain events q works last) := by
  induction q generalizing works last with
  | nil =>
    constructor
    · exact ⟨[], rfl, nofun⟩
    · rfl
    · exact fun h => absurd rfl h
    · exact fun _ _ => rfl
  | cons w rest ih =>
    obtain ⟨hw, hrest⟩ := List.nodup_cons.mp hnodup
    by_cases hnext : (works w).next (events w) = .COMPLETED
    · have hne : ∀ v ∈ rest, v ≠ w := by
        rintro v hv rfl
        exact hw hv
      have hstop : stop events works (w :: rest) = stop events (checked events works w) rest := by
        rw [stop, if_pos hnext]
        apply Eq.symm
        apply stop_congr
        exact fun v hv => checked_of_ne (hne v hv)
      have h := @ih (checked events works w) .COMPLETED hrest
      rw [drain_of_completed rest hnext]
      constructor
      · obtain ⟨popped, hsplit, hdone⟩ := h.removed
        use w :: popped
        constructor
        · rw [List.cons_append, ← hsplit]
        · intro v hv
          cases hv with
          | head => rw [h.others w hw, checked_self, hnext]
          | tail _ hv => exact hdone v hv
      · rw [hstop]
        exact h.front
      · intro _
        rw [hstop]
        cases rest with
        | nil => rfl
        | cons v vs => exact h.last_eq nofun
      · intro v hv
        rw [List.mem_cons, not_or] at hv
        rw [h.others v hv.2, checked_of_ne hv.1]
    · have hstop : stop events works (w :: rest) = some ((works w).next (events w)) := by
        rw [stop, if_neg hnext]
      rw [drain_of_stop rest hnext]
      constructor
      · exact ⟨[], rfl, nofun⟩
      · rw [hstop, List.head?_cons, Option.map_some, checked_self]
      · intro _
        rw [hstop]
        rfl
      · intro v hv
        apply checked_of_ne
        rintro rfl
        exact hv (List.mem_cons_self ..)

/-! ### The map of queues -/

/-- The result of a scan of queues that stop so, when `last` is what the scan before found. -/
def verdict : List (Option WorkStatus) → WorkStatus → WorkStatus
  | [], last => last
  | o :: rest, _ =>
    if (o.getD .COMPLETED).failed then o.getD .COMPLETED else verdict rest (o.getD .COMPLETED)

/-- Where the queues stop, in the order of the scan. -/
def stops (events : Events) (works : ℕ → Tracked) (m : List (ℕ × List ℕ)) :
    List (Option WorkStatus) :=
  m.map fun p => stop events works p.2

def flat (m : List (ℕ × List ℕ)) : List ℕ := m.flatMap Prod.snd

theorem stops_congr {m : List (ℕ × List ℕ)}
    (h : ∀ w ∈ flat m, works' w = works w) : stops events works' m = stops events works m := by
  apply List.map_congr_left
  intro p hp
  apply stop_congr
  intro w hw
  exact h w (List.mem_flatMap.mpr ⟨p, hp, hw⟩)

/-- One list of queues is left of another: completed works are gone from the fronts, and a queue
left without any is gone itself. -/
inductive Removed (works : ℕ → Tracked) : List (ℕ × List ℕ) → List (ℕ × List ℕ) → Prop
  | rest (m : List (ℕ × List ℕ)) : Removed works m m
  | keep {stream : ℕ} {popped left : List ℕ} {m m' : List (ℕ × List ℕ)}
      (hdone : ∀ w ∈ popped, (works w).work.state_ = .COMPLETED) (hleft : left ≠ [])
      (h : Removed works m m') : Removed works ((stream, popped ++ left) :: m) ((stream, left) :: m')
  | erase {stream : ℕ} {q : List ℕ} {m m' : List (ℕ × List ℕ)}
      (hdone : ∀ w ∈ q, (works w).work.state_ = .COMPLETED)
      (h : Removed works m m') : Removed works ((stream, q) :: m) m'

namespace Removed

variable {m m' : List (ℕ × List ℕ)}

section

variable (h : Removed works m m')
include h

theorem keys_sublist : (m'.map Prod.fst).Sublist (m.map Prod.fst) := by
  induction h with
  | rest m => exact List.Sublist.refl _
  | keep _ _ _ ih => exact ih.cons_cons _
  | erase _ _ ih => exact ih.cons _

theorem flat_sublist : (flat m').Sublist (flat m) := by
  induction h with
  | rest m => exact List.Sublist.refl _
  | keep _ _ _ ih =>
    simp only [flat, List.flatMap_cons] at ih ⊢
    apply List.Sublist.append _ ih
    exact List.sublist_append_right _ _
  | erase _ _ ih =>
    simp only [flat, List.flatMap_cons] at ih ⊢
    exact ih.trans (List.sublist_append_right _ _)

theorem mem_or_completed {w : ℕ} (hw : w ∈ flat m) :
    w ∈ flat m' ∨ (works w).work.state_ = .COMPLETED := by
  induction h with
  | rest m => exact .inl hw
  | @keep stream popped left _ _ hdone _ _ ih =>
    simp only [flat, List.flatMap_cons, List.mem_append] at hw ih ⊢
    rcases hw with (hw | hw) | hw
    · exact .inr (hdone w hw)
    · exact .inl (.inl hw)
    · exact (ih hw).imp .inr id
  | erase hdone _ ih =>
    simp only [flat, List.flatMap_cons, List.mem_append] at hw ih
    rcases hw with hw | hw
    · exact .inr (hdone w hw)
    · exact ih hw

theorem nonempty (hm : ∀ p ∈ m, p.2 ≠ []) : ∀ p ∈ m', p.2 ≠ [] := by
  induction h with
  | rest m => exact hm
  | keep _ hleft _ ih =>
    intro p hp
    cases hp with
    | head => exact hleft
    | tail _ hp => exact ih (fun q hq => hm q (List.mem_cons_of_mem _ hq)) p hp
  | erase _ _ ih => exact ih fun q hq => hm q (List.mem_cons_of_mem _ hq)

end

theorem lookup_eq_nil_of_not_mem {stream : ℕ} (h : stream ∉ m.map Prod.fst) :
    (m.lookup stream).getD [] = [] := by
  have hnone : m.lookup stream = none := by
    rw [List.lookup_eq_none_iff]
    intro p hp
    rw [bne_iff_ne]
    rintro rfl
    exact h (List.mem_map_of_mem hp)
  rw [hnone, Option.getD_none]

theorem lookup (h : Removed works m m') (hkeys : (m.map Prod.fst).Nodup) (stream : ℕ) :
    ∃ popped, (m.lookup stream).getD [] = popped ++ (m'.lookup stream).getD [] ∧
      ∀ w ∈ popped, (works w).work.state_ = .COMPLETED := by
  induction h with
  | rest m => exact ⟨[], rfl, nofun⟩
  | @keep s popped left m m' hdone _ _ ih =>
    rw [List.map_cons, List.nodup_cons] at hkeys
    by_cases hs : stream = s
    · subst hs
      exact ⟨popped, by simp, hdone⟩
    · simpa [List.lookup_cons, beq_false_of_ne hs] using ih hkeys.2
  | @erase s q m m' hdone h ih =>
    rw [List.map_cons, List.nodup_cons] at hkeys
    by_cases hs : stream = s
    · subst hs
      have hgone : stream ∉ m'.map Prod.fst := fun hmem => hkeys.1 (h.keys_sublist.subset hmem)
      exact ⟨q, by simp [lookup_eq_nil_of_not_mem hgone], hdone⟩
    · simpa [List.lookup_cons, beq_false_of_ne hs] using ih hkeys.2

end Removed

/-- What a scan of the map does: the result is read off the stops, and the works at which queues
stop are still queued, at the front. -/
structure Collected (events : Events) (works : ℕ → Tracked) (m : List (ℕ × List ℕ))
    (last : WorkStatus) (c : Scan (List (ℕ × List ℕ))) : Prop where
  removed : Removed c.works m c.left
  last_eq : c.last_status = verdict (stops events works m) last
  failed : c.last_status.failed → ∃ p ∈ c.left,
    (p.2.head?.map fun w => (c.works w).work.state_) = some c.last_status
  stuck : c.last_status.failed = false → ∀ st, some st ∈ stops events works m →
    ∃ w ∈ flat c.left, (c.works w).work.state_ = st
  cleared : (∀ o ∈ stops events works m, o = none) → c.left = []
  others : ∀ w, w ∉ flat m → c.works w = works w

section

variable (h : Drained events works q last d)
include h

theorem not_failed_of_eq_nil
    (hq : q ≠ []) (hleft : d.left = []) : d.last_status.failed = false := by
  have hstop : stop events works q = none := by
    rw [← h.front, hleft]
    rfl
  rw [h.last_eq hq, hstop]
  rfl

theorem Drained.stops_eq {m : List (ℕ × List ℕ)} (hdisjoint : List.Disjoint q (flat m)) :
    stops events d.works m = stops events works m := by
  apply stops_congr
  intro w hw
  apply h.others
  exact fun hq => hdisjoint hq hw

theorem Drained.front_eq
    (hst : stop events works q = some st) : ∃ w ∈ d.left, (d.works w).work.state_ = st := by
  have hfront := h.front
  rw [hst] at hfront
  obtain ⟨w, hw, hstatus⟩ := Option.map_eq_some_iff.mp hfront
  exact ⟨w, List.mem_of_mem_head? hw, hstatus⟩

end

theorem collect_cons_failed (rest : List (ℕ × List ℕ))
    (h : (drain events q works last).last_status.failed) :
    collect events ((stream, q) :: rest) works last =
      ⟨(stream, (drain events q works last).left) :: rest, (drain events q works last).works,
        (drain events q works last).last_status⟩ := by
  rw [collect]
  exact if_pos h

theorem collect_cons (rest : List (ℕ × List ℕ))
    (h : (drain events q works last).last_status.failed = false) :
    collect events ((stream, q) :: rest) works last =
      let d := drain events q works last
      let c := collect events rest d.works d.last_status
      ⟨if d.left = [] then c.left else (stream, d.left) :: c.left, c.works, c.last_status⟩ := by
  rw [collect]
  exact if_neg (by simp [h])

theorem Drained.collected_of_failed
    {m : List (ℕ × List ℕ)} (hd : Drained events works q last d) (hq : q ≠ [])
    (hfailed : d.last_status.failed) :
    Collected events works ((stream, q) :: m) last ⟨(stream, d.left) :: m, d.works, d.last_status⟩ := by
  obtain ⟨popped, hsplit, hdone⟩ := hd.removed
  have hleft : d.left ≠ [] := by
    intro hleft
    rw [not_failed_of_eq_nil hd hq hleft] at hfailed
    cases hfailed
  have hstop : stop events works q = some d.last_status := by
    cases hs : stop events works q with
    | none =>
      rw [hd.last_eq hq, hs] at hfailed
      cases hfailed
    | some st => rw [hd.last_eq hq, hs, Option.getD_some]
  constructor
  · rw [hsplit]
    exact Removed.keep hdone hleft (Removed.rest m)
  · rw [stops, List.map_cons, verdict, ← hd.last_eq hq, if_pos hfailed]
  · intro _
    use (stream, d.left)
    constructor
    · exact List.mem_cons_self ..
    · rw [hd.front, hstop]
  · intro h
    rw [hfailed] at h
    cases h
  · intro h
    have hnone := h (stop events works q) (List.mem_cons_self ..)
    rw [hstop] at hnone
    cases hnone
  · intro w hw
    apply hd.others
    exact fun hmem => hw (List.mem_append_left _ hmem)

theorem Drained.collected {c : Scan (List (ℕ × List ℕ))}
    {m : List (ℕ × List ℕ)} (hd : Drained events works q last d) (hq : q ≠ [])
    (hdisjoint : List.Disjoint q (flat m)) (hok : d.last_status.failed = false)
    (hc : Collected events d.works m d.last_status c) :
    Collected events works ((stream, q) :: m) last
      ⟨if d.left = [] then c.left else (stream, d.left) :: c.left, c.works, c.last_status⟩ := by
  obtain ⟨popped, hsplit, hdone⟩ := hd.removed
  have hstops := hd.stops_eq hdisjoint
  have hkeep : ∀ w ∈ q, c.works w = d.works w := fun w hw => hc.others w (hdisjoint hw)
  have hpopped : ∀ w ∈ popped, (c.works w).work.state_ = .COMPLETED := by
    intro w hw
    rw [hkeep w (hsplit ▸ List.mem_append_left _ hw)]
    exact hdone w hw
  constructor
  · simp only
    split
    · rename_i hleft
      rw [hleft, List.append_nil] at hsplit
      rw [hsplit]
      exact hc.removed.erase hpopped
    · rename_i hleft
      rw [hsplit]
      exact Removed.keep hpopped hleft hc.removed
  · rw [stops, List.map_cons, verdict, ← hd.last_eq hq, hok, if_neg Bool.false_ne_true]
    rw [← stops, ← hstops]
    exact hc.last_eq
  · intro h
    obtain ⟨p, hp, hhead⟩ := hc.failed h
    use p
    constructor
    · simp only
      split
      · exact hp
      · exact List.mem_cons_of_mem _ hp
    · exact hhead
  · intro h st hst
    rw [stops, List.map_cons, List.mem_cons] at hst
    rcases hst with hst | hst
    · obtain ⟨w, hw, hstatus⟩ := hd.front_eq hst.symm
      use w
      constructor
      · simp only
        rw [if_neg (List.ne_nil_of_mem hw), flat, List.flatMap_cons]
        exact List.mem_append_left _ hw
      · rw [hkeep w (hsplit ▸ List.mem_append_right _ hw)]
        exact hstatus
    · rw [← stops, ← hstops] at hst
      obtain ⟨w, hw, hstatus⟩ := hc.stuck h st hst
      use w
      constructor
      · simp only
        split
        · exact hw
        · rw [flat, List.flatMap_cons]
          exact List.mem_append_right _ hw
      · exact hstatus
  · intro h
    have hnone := h (stop events works q) (List.mem_cons_self ..)
    have hleft : d.left = [] := by
      have hfront := hd.front
      rw [hnone, Option.map_eq_none_iff] at hfront
      exact List.head?_eq_none_iff.mp hfront
    simp only
    rw [if_pos hleft]
    apply hc.cleared
    intro o ho
    rw [hstops] at ho
    exact h o (List.mem_cons_of_mem _ ho)
  · intro w hw
    rw [flat, List.flatMap_cons, List.mem_append, not_or] at hw
    rw [hc.others w hw.2, hd.others w hw.1]

theorem collect_spec {m : List (ℕ × List ℕ)} (hlast : last.failed = false)
    (hne : ∀ p ∈ m, p.2 ≠ []) (hnodup : (flat m).Nodup) :
    Collected events works m last (collect events m works last) := by
  induction m generalizing works last with
  | nil =>
    constructor
    · exact .rest []
    · rfl
    · intro h
      rw [collect, hlast] at h
      cases h
    · exact fun _ _ h => absurd h List.not_mem_nil
    · exact fun _ => rfl
    · exact fun _ _ => rfl
  | cons p rest ih =>
    obtain ⟨stream, q⟩ := p
    have hq : q ≠ [] := hne (stream, q) (List.mem_cons_self ..)
    have hflat : flat ((stream, q) :: rest) = q ++ flat rest := List.flatMap_cons ..
    rw [hflat, List.nodup_append'] at hnodup
    obtain ⟨hqnodup, hrest, hdisjoint⟩ := hnodup
    have hd : Drained events works q last (drain events q works last) := drain_spec hqnodup
    cases hfailed : (drain events q works last).last_status.failed with
    | true =>
      rw [collect_cons_failed rest hfailed]
      exact hd.collected_of_failed hq hfailed
    | false =>
      rw [collect_cons rest hfailed]
      apply hd.collected hq hdisjoint hfailed
      apply ih hfailed _ hrest
      exact fun p hp => hne p (List.mem_cons_of_mem _ hp)

end TorchComms.Ncclx
