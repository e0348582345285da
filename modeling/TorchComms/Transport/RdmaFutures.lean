import TorchComms.Transport.RdmaTransport
import Mathlib.Data.List.Count
import Mathlib.Data.List.Nodup

/-! # The futures of the transport

The works that have been accepted are those that are pending with those that have been resolved. A
walk resolves waits in front of all that are left, or none any more, or all that are left with an
error.
-/
namespace TorchComms.Transport

open Function

variable {s : State} {ib : Ib} {pending kept ws : List Work} {w : Work} {res : CommResult}
  {q : ℕ → Poll} {p : Poll}

/-! ## The IB layer -/

/-- A completed request is not pointed to, and its data has been transferred. -/
def Ib.Settled (ib : Ib) : Prop :=
  ∀ id, ib.complete id = true → id ∉ ib.retained ∧ ib.transferred id = true

/-- What a poll does to the IB layer. -/
structure Ib.Polled (ib ib' : Ib) : Prop where
  retained : ∀ id ∈ ib'.retained, id ∈ ib.retained
  complete : ∀ id, ib'.complete id = true → ib.complete id = true ∨ id ∈ ib.retained
  transferred : ib'.transferred = ib.transferred
  settled : ib.Settled → ib'.Settled
  count : ib'.arrived + ib.notifyCount = ib.arrived + ib'.notifyCount
  arrived : ib.arrived ≤ ib'.arrived

theorem Ib.Polled.refl (ib : Ib) : ib.Polled ib where
  retained := fun _ h => h
  complete := fun _ h => .inl h
  transferred := rfl
  settled := fun h => h
  count := rfl
  arrived := Nat.le_refl _

theorem Ib.Polled.trans {ib ib₁ ib₂ : Ib} (h : ib.Polled ib₁) (h' : ib₁.Polled ib₂) :
    ib.Polled ib₂ where
  retained := fun id hid => h.retained id (h'.retained id hid)
  complete := by
    intro id hid
    rcases h'.complete id hid with hc | hr
    · exact h.complete id hc
    · exact .inr (h.retained id hr)
  transferred := h'.transferred.trans h.transferred
  settled := fun hs => h'.settled (h.settled hs)
  count := by
    have hcount := h.count
    have hcount' := h'.count
    omega
  arrived := Nat.le_trans h.arrived h'.arrived

theorem Ib.polled_event (ib : Ib) (e : Event) : ib.Polled (ib.event e) := by
  cases e with
  | complete id =>
    rw [Ib.event]
    split
    · rename_i hid
      refine ⟨?_, ?_, rfl, ?_, rfl, Nat.le_refl _⟩
      · exact fun id' h => (List.mem_filter.mp h).1
      · intro id' h
        by_cases heq : id' = id
        · exact .inr (heq ▸ hid.1)
        · exact .inl (by simpa [heq] using h)
      · intro hs id' h
        by_cases heq : id' = id
        · subst heq
          exact ⟨by simp, hid.2⟩
        · obtain ⟨hnot, htrans⟩ := hs id' (by simpa [heq] using h)
          exact ⟨fun hmem => hnot (List.mem_filter.mp hmem).1, htrans⟩
    · exact .refl ib
  | notify =>
    refine ⟨fun _ h => h, fun _ h => .inl h, rfl, fun h => h, ?_, Nat.le_succ _⟩
    simp only [Ib.event]
    omega

theorem Ib.polled (ib : Ib) (p : Poll) : ib.Polled (ib.poll p) := by
  rw [Ib.poll]
  induction p.events generalizing ib with
  | nil => exact .refl ib
  | cons e es ih => exact (ib.polled_event e).trans (ih _)

/-! ## The works and the promises -/

structure Inv (pending : List Work) (s : State) : Prop where
  lt : ∀ w ∈ s.accepted, w.id < s.next
  nodup : s.accepted.Nodup
  perm : (s.promises.map (·.work) ++ pending).Perm s.accepted
  settled : s.ib.Settled
  complete_lt : ∀ id, s.ib.complete id = true → id < s.next
  retained : ∀ id ∈ s.ib.retained, ⟨id, true⟩ ∈ pending
  transferred : ∀ r ∈ s.promises, r.res = .commSuccess → r.work.isWrite = true →
    s.ib.transferred r.work.id = true
  order : s.resolvedWaits.map (·.work) ++ waits pending = waits s.accepted
  count : (s.resolvedWaits.countP fun r => r.res = .commSuccess) + s.ib.notifyCount = s.ib.arrived
  notified : ∀ (i : ℕ) (r : Resolved), s.resolvedWaits[i]? = some r → r.res = .commSuccess →
    i + 1 ≤ r.arrived

/-- No wait has failed. -/
def Fine (s : State) : Prop := ∀ r ∈ s.resolvedWaits, r.res = .commSuccess

theorem inv_init : Inv [] .init where
  lt := by simp [State.init]
  nodup := by simp [State.init]
  perm := by simp [State.init]
  settled := by simp [Ib.Settled, State.init]
  complete_lt := by simp [State.init]
  retained := by simp [State.init]
  transferred := by simp [State.init]
  order := by simp [State.init, State.resolvedWaits, waits]
  count := by simp [State.init, State.resolvedWaits]
  notified := by simp [State.init, State.resolvedWaits]

theorem Inv.congr (hinv : Inv pending s) {ws : List Work} :
    Inv pending { s with pendingWorks := ws } where
  __ := hinv

theorem Inv.polled (hinv : Inv pending s) (hib : s.ib.Polled ib) :
    Inv pending { s with ib := ib } where
  __ := hinv
  settled := hib.settled hinv.settled
  complete_lt := by
    intro id hid
    rcases hib.complete id hid with hc | hr
    · exact hinv.complete_lt id hc
    · exact hinv.lt _ (hinv.perm.subset (List.mem_append_right _ (hinv.retained id hr)))
  retained := fun id hid => hinv.retained id (hib.retained id hid)
  transferred := by
    intro r hr hres hw
    change ib.transferred r.work.id = true
    rw [hib.transferred]
    exact hinv.transferred r hr hres hw
  count := by
    have hcount := hinv.count
    have hib_count := hib.count
    change (s.resolvedWaits.countP _) + ib.notifyCount = ib.arrived
    omega

/-! ## Setting a promise -/

theorem resolvedWaits_write (hw : w.isWrite = true) :
    (s.setValue w res).resolvedWaits = s.resolvedWaits := by
  simp [State.resolvedWaits, State.setValue, hw]

theorem resolvedWaits_wait (hw : w.isWrite = false) :
    (s.setValue w res).resolvedWaits = s.resolvedWaits ++ [⟨w, res, s.ib.arrived⟩] := by
  simp [State.resolvedWaits, State.setValue, hw]

theorem waits_middle_write (hw : w.isWrite = true) :
    waits (kept ++ w :: ws) = waits (kept ++ ws) := by
  simp [waits, hw]

theorem waits_middle_wait (hw : w.isWrite = false) (hkept : waits kept = []) :
    waits (kept ++ w :: ws) = w :: waits (kept ++ ws) := by
  simp only [waits] at hkept
  simp [waits, hw, hkept]

section

variable (hinv : Inv (kept ++ w :: ws) s)
include hinv

theorem Inv.perm_setValue :
    ((s.setValue w res).promises.map (·.work) ++ (kept ++ ws)).Perm s.accepted := by
  refine List.Perm.trans ?_ hinv.perm
  simp only [State.setValue, List.map_append, List.map_cons, List.map_nil, List.append_assoc,
    List.singleton_append]
  exact List.Perm.append_left _ List.perm_middle.symm

/-- The promise of a write whose request is not pointed to. -/
theorem Inv.setValue_write (hw : w.isWrite = true)
    (hnot : w.id ∉ s.ib.retained) (htrans : res = .commSuccess → s.ib.transferred w.id = true) :
    Inv (kept ++ ws) (s.setValue w res) where
  __ := hinv
  perm := hinv.perm_setValue
  retained := by
    intro id hid
    have hne : (⟨id, true⟩ : Work) ≠ w := by
      rintro rfl
      exact hnot hid
    have hmem := hinv.retained id hid
    simp only [List.mem_append, List.mem_cons, hne, false_or] at hmem ⊢
    exact hmem
  transferred := by
    intro r hr hres hrw
    rcases List.mem_append.mp hr with hr | hr
    · exact hinv.transferred r hr hres hrw
    · rw [List.mem_singleton] at hr
      subst hr
      exact htrans hres
  order := by
    rw [resolvedWaits_write hw, ← waits_middle_write hw]
    exact hinv.order
  count := by
    rw [resolvedWaits_write hw]
    exact hinv.count
  notified := by
    rw [resolvedWaits_write hw]
    exact hinv.notified

theorem Inv.setValue_wait (hw : w.isWrite = false) (hkept : waits kept = []) {notifyCount : ℕ}
    (hcount : notifyCount + (if res = .commSuccess then 1 else 0) = s.ib.notifyCount)
    (hfine : res = .commSuccess → Fine s) :
    Inv (kept ++ ws)
      ({ s with ib := { s.ib with notifyCount := notifyCount } }.setValue w res) where
  __ := hinv
  perm := hinv.perm_setValue
  retained := by
    intro id hid
    have hne : (⟨id, true⟩ : Work) ≠ w := by
      rintro rfl
      cases hw
    have hmem := hinv.retained id hid
    simp only [List.mem_append, List.mem_cons, hne, false_or] at hmem ⊢
    exact hmem
  transferred := by
    intro r hr hres hrw
    rcases List.mem_append.mp hr with hr | hr
    · exact hinv.transferred r hr hres hrw
    · rw [List.mem_singleton] at hr
      subst hr
      simp [hw] at hrw
  order := by
    have horder := hinv.order
    rw [waits_middle_wait hw hkept] at horder
    rw [resolvedWaits_wait hw]
    simpa [State.resolvedWaits, State.setValue] using horder
  count := by
    have hcount_s := hinv.count
    rw [resolvedWaits_wait hw, List.countP_append, List.countP_singleton]
    simp only [State.setValue, decide_eq_true_eq]
    change s.resolvedWaits.countP _ + _ + notifyCount = s.ib.arrived
    omega
  notified := by
    rw [resolvedWaits_wait hw]
    intro i r hr hres
    change (s.resolvedWaits ++ _)[i]? = some r at hr
    rw [List.getElem?_append] at hr
    split at hr
    · exact hinv.notified i r hr hres
    · rename_i hlen
      rw [List.getElem?_singleton] at hr
      split at hr
      · cases hr
        have hall : (s.resolvedWaits.countP fun r => r.res = .commSuccess) =
            s.resolvedWaits.length :=
          List.countP_eq_length.mpr fun r hr => decide_eq_true (hfine hres r hr)
        have hcount_s := hinv.count
        simp only at hres
        rw [if_pos hres] at hcount
        simp only
        omega
      · cases hr

end

/-! ## The walk -/

theorem failed_ne (h : failed res = true) : res ≠ .commSuccess := by
  rintro rfl
  simp [failed] at h

inductive Checked (ib : Ib) (p : Poll) : CommResult × Bool × Ib → Prop
  | failed (res : CommResult) (hres : res ≠ .commSuccess) : Checked ib p (res, false, ib.poll p)
  | done (n : ℕ) (hn : n + 1 = (ib.poll p).notifyCount) :
      Checked ib p (.commSuccess, true, { ib.poll p with notifyCount := n })
  | notDone : Checked ib p (.commSuccess, false, ib.poll p)

theorem checked (ib : Ib) (p : Poll) : Checked ib p (ib.checkNotify p) := by
  rw [Ib.checkNotify]
  split
  · rename_i hfailed
    exact .failed _ (failed_ne hfailed)
  · split
    · rename_i hpos
      exact .done _ (Nat.succ_pred_eq_of_pos hpos)
    · exact .notDone

theorem waits_concat_write (hw : w.isWrite = true) : waits (kept ++ [w]) = waits kept := by
  simp [waits, hw]

section

variable (hinv : Inv (kept ++ w :: ws) s)
include hinv

theorem Inv.visit_write (hw : w.isWrite = true) (hres : failed res = false) :
    ∃ kept' s', s.visit res q kept (w :: ws) = s'.visit res q kept' ws ∧
      Inv (kept' ++ ws) s' ∧ waits kept' = waits kept ∧ s'.ib = s.ib ∧
      s'.resolvedWaits = s.resolvedWaits := by
  cases hc : s.ib.complete w.id with
  | true =>
    obtain ⟨hnot, htrans⟩ := hinv.settled w.id hc
    refine ⟨kept, s.setValue w .commSuccess, ?_, ?_, rfl, rfl, resolvedWaits_write hw⟩
    · simp [State.visit, hres, hw, hc]
    · exact hinv.setValue_write hw hnot fun _ => htrans
  | false =>
    refine ⟨kept ++ [w], s, ?_, ?_, waits_concat_write hw, rfl, rfl⟩
    · simp [State.visit, hres, hw, hc]
    · simpa using hinv

theorem Inv.visit_notDone (hw : w.isWrite = false) (hres : failed res = false)
    (hcheck : s.ib.checkNotify (q w.id) = (.commSuccess, false, s.ib.poll (q w.id))) :
    s.visit res q kept (w :: ws) =
        { s with ib := s.ib.poll (q w.id) }.visit res q (kept ++ [w]) ws ∧
      Inv (kept ++ [w] ++ ws) { s with ib := s.ib.poll (q w.id) } := by
  constructor
  · simp [State.visit, hres, hw, hcheck]
  · simpa using hinv.polled (s.ib.polled (q w.id))

theorem Inv.visit_failed (hw : w.isWrite = false)
    (hkept : waits kept = []) (hres : failed res = false) {waitRes : CommResult}
    (hwait : waitRes ≠ .commSuccess)
    (hcheck : s.ib.checkNotify (q w.id) = (waitRes, false, s.ib.poll (q w.id))) :
    ∃ s', s.visit res q kept (w :: ws) = s'.visit res q kept ws ∧ Inv (kept ++ ws) s' ∧
      s'.ib = s.ib.poll (q w.id) := by
  refine ⟨{ s with ib := s.ib.poll (q w.id) }.setValue w waitRes, ?_, ?_, rfl⟩
  · simp [State.visit, hres, hw, hcheck, hwait]
  · exact (hinv.polled (s.ib.polled (q w.id))).setValue_wait hw hkept
      (by rw [if_neg hwait]; rfl) fun h => absurd h hwait

end

section

variable (hres : failed res = false) (hinv : Inv (kept ++ ws) s)
include hres hinv

theorem Inv.visit_pending
    (hanswers : ∀ a ∈ answers q ws s.ib, a = (.commSuccess, false)) :
    Inv (s.visit res q kept ws).pendingWorks (s.visit res q kept ws) ∧
      (s.visit res q kept ws).resolvedWaits = s.resolvedWaits := by
  induction ws generalizing kept s with
  | nil =>
    rw [List.append_nil] at hinv
    exact ⟨hinv.congr, rfl⟩
  | cons w ws ih =>
    cases hw : w.isWrite with
    | true =>
      obtain ⟨kept', s', hvisit, hinv', -, hib, hwaits⟩ :=
        hinv.visit_write (q := q) hw hres
      rw [hvisit, ← hwaits]
      apply ih hinv'
      rw [hib]
      simpa [answers, hw] using hanswers
    | false =>
      have hcheck := checked s.ib (q w.id)
      simp only [answers, hw, Bool.false_eq_true, if_false, List.mem_cons] at hanswers
      have hfirst := hanswers _ (.inl rfl)
      generalize hr : s.ib.checkNotify (q w.id) = r at hcheck hanswers hfirst
      cases hcheck with
      | failed r hne => exact absurd (Prod.mk.inj hfirst).1 hne
      | done n hn => cases (Prod.mk.inj hfirst).2
      | notDone =>
        obtain ⟨hvisit, hinv'⟩ := hinv.visit_notDone hw hres hr
        rw [hvisit]
        exact ih hinv' fun a ha => hanswers a (.inr ha)

theorem Inv.visit_failing
    (hkept : waits kept = [])
    (hanswers : ∀ a ∈ answers q ws s.ib, a.2 = false ∧ a.1 ≠ .commSuccess) :
    Inv (s.visit res q kept ws).pendingWorks (s.visit res q kept ws) ∧
      waits (s.visit res q kept ws).pendingWorks = [] := by
  induction ws generalizing kept s with
  | nil =>
    rw [List.append_nil] at hinv
    exact ⟨hinv.congr, hkept⟩
  | cons w ws ih =>
    cases hw : w.isWrite with
    | true =>
      obtain ⟨kept', s', hvisit, hinv', hwaits, hib, -⟩ :=
        hinv.visit_write (q := q) hw hres
      rw [hvisit]
      apply ih hinv' (hwaits.trans hkept)
      rw [hib]
      simpa [answers, hw] using hanswers
    | false =>
      have hcheck := checked s.ib (q w.id)
      simp only [answers, hw, Bool.false_eq_true, if_false, List.mem_cons] at hanswers
      have hfirst := hanswers _ (.inl rfl)
      generalize hr : s.ib.checkNotify (q w.id) = r at hcheck hanswers hfirst
      cases hcheck with
      | failed r hne =>
        obtain ⟨s', hvisit, hinv', hib⟩ := hinv.visit_failed hw hkept hres hne hr
        rw [hvisit]
        apply ih hinv' hkept
        rw [hib]
        exact fun a ha => hanswers a (.inr ha)
      | done n hn => cases hfirst.1
      | notDone => exact absurd rfl hfirst.2

theorem Inv.visit_orderly
    (hkept : waits kept = []) (hfine : Fine s) (hanswers : (answers q ws s.ib).Pairwise Follows) :
    Inv (s.visit res q kept ws).pendingWorks (s.visit res q kept ws) ∧
      (Fine (s.visit res q kept ws) ∨
        waits (s.visit res q kept ws).pendingWorks = []) := by
  induction ws generalizing kept s with
  | nil =>
    rw [List.append_nil] at hinv
    exact ⟨hinv.congr, .inr hkept⟩
  | cons w ws ih =>
    cases hw : w.isWrite with
    | true =>
      obtain ⟨kept', s', hvisit, hinv', hwaits, hib, hresolved⟩ :=
        hinv.visit_write (q := q) hw hres
      rw [hvisit]
      apply ih hinv' (hwaits.trans hkept)
      · rwa [Fine, hresolved]
      · rw [hib]
        simpa [answers, hw] using hanswers
    | false =>
      have hcheck := checked s.ib (q w.id)
      simp only [answers, hw, Bool.false_eq_true, if_false, List.pairwise_cons] at hanswers
      generalize hr : s.ib.checkNotify (q w.id) = r at hcheck hanswers
      obtain ⟨hfollows, hrest⟩ := hanswers
      cases hcheck with
      | failed r hne =>
        obtain ⟨s', hvisit, hinv', hib⟩ := hinv.visit_failed hw hkept hres hne hr
        rw [hvisit]
        have hfailing := hinv'.visit_failing (q := q) hres hkept (by
          rw [hib]
          intro a ha
          rcases hfollows a ha with hdone | ⟨hnot, hsame⟩
          · cases hdone
          · exact ⟨hnot, fun h => hne (hsame.mp h)⟩)
        exact ⟨hfailing.1, .inr hfailing.2⟩
      | done n hn =>
        have hinv' : Inv (kept ++ ws) ({ s with
            ib := { s.ib.poll (q w.id) with notifyCount := n } }.setValue w .commSuccess) :=
          (hinv.polled (s.ib.polled (q w.id))).setValue_wait hw hkept
            (by rw [if_pos rfl]; exact hn) fun _ => hfine
        have hvisit : s.visit res q kept (w :: ws) =
            State.visit res q kept ws ({ s with
              ib := { s.ib.poll (q w.id) with notifyCount := n } }.setValue w .commSuccess) := by
          simp [State.visit, hres, hw, hr]
        rw [hvisit]
        apply ih hinv' hkept ?_ hrest
        rw [Fine, resolvedWaits_wait hw]
        intro r' hr'
        rcases List.mem_append.mp hr' with hr' | hr'
        · exact hfine r' hr'
        · rw [List.mem_singleton] at hr'
          rw [hr']
      | notDone =>
        obtain ⟨hvisit, hinv'⟩ := hinv.visit_notDone hw hres hr
        rw [hvisit]
        have hpending := hinv'.visit_pending (q := q) hres (by
          intro a ha
          rcases hfollows a ha with hdone | ⟨hnot, hsame⟩
          · cases hdone
          · exact Prod.ext (hsame.mpr rfl) hnot)
        refine ⟨hpending.1, .inl ?_⟩
        rw [Fine, hpending.2]
        exact hfine

end

theorem Inv.visit_error (hres : failed res = true) (hinv : Inv ([] ++ ws) s) (hnone : s.ib.retained = []) :
    Inv (s.visit res q [] ws).pendingWorks (s.visit res q [] ws) ∧
      (s.visit res q [] ws).pendingWorks = [] := by
  induction ws generalizing s with
  | nil => exact ⟨hinv.congr, rfl⟩
  | cons w ws ih =>
    rw [State.visit, if_pos hres]
    cases hw : w.isWrite with
    | true =>
      exact ih (hinv.setValue_write hw (by simp [hnone])
        fun h => absurd h (failed_ne hres)) hnone
    | false =>
      have hne := failed_ne hres
      exact ih (hinv.setValue_wait hw rfl (by rw [if_neg hne]; rfl) fun h => absurd h hne) hnone

/-! ## Steps and runs -/

section

variable (hinv : Inv pending s)
include hinv

theorem Inv.not_mem_next (isWrite : Bool) :
    (⟨s.next, isWrite⟩ : Work) ∉ s.accepted := fun hmem => Nat.lt_irrefl _ (hinv.lt _ hmem)

theorem Inv.perm_push (w : Work) :
    (s.promises.map (·.work) ++ (pending ++ [w])).Perm (s.accepted ++ [w]) := by
  rw [← List.append_assoc]
  exact hinv.perm.append_right _

theorem Inv.lt_push (isWrite : Bool) :
    ∀ w ∈ s.accepted ++ [(⟨s.next, isWrite⟩ : Work)], w.id < s.next + 1 := by
  intro w hw
  rcases List.mem_append.mp hw with hw | hw
  · exact Nat.lt_succ_of_lt (hinv.lt w hw)
  · rw [List.mem_singleton] at hw
    rw [hw]
    exact Nat.lt_succ_self _

theorem Inv.nodup_push (isWrite : Bool) : (s.accepted ++ [(⟨s.next, isWrite⟩ : Work)]).Nodup := by
  rw [List.nodup_append]
  refine ⟨hinv.nodup, List.nodup_singleton _, ?_⟩
  rintro w hw w' hw' rfl
  rw [List.mem_singleton] at hw'
  exact hinv.not_mem_next isWrite (hw' ▸ hw)

theorem Inv.settled_retain : (s.ib.retain s.next).Settled := by
  intro id hid
  obtain ⟨hnot, htrans⟩ := hinv.settled id hid
  refine ⟨?_, htrans⟩
  have hlt := hinv.complete_lt id hid
  simp only [Ib.retain, List.mem_append, List.mem_singleton, not_or]
  exact ⟨hnot, Nat.ne_of_lt hlt⟩

end

theorem Inv.write (hinv : Inv s.pendingWorks s) {queued : Bool}
    (hop : failed res = true → queued = false) :
    Inv (s.write res queued).pendingWorks (s.write res queued) ∧
      (s.write res queued).resolvedWaits = s.resolvedWaits ∧
      waits (s.write res queued).pendingWorks = waits s.pendingWorks := by
  rw [State.write]
  split
  · rename_i hfailed
    rw [hop hfailed]
    refine ⟨{ hinv with lt := ?_, complete_lt := ?_ }, rfl, rfl⟩
    · exact fun w hw => Nat.lt_succ_of_lt (hinv.lt w hw)
    · exact fun id hid => Nat.lt_succ_of_lt (hinv.complete_lt id hid)
  · refine ⟨?_, rfl, waits_concat_write rfl⟩
    exact
      { lt := hinv.lt_push true
        nodup := hinv.nodup_push true
        perm := hinv.perm_push _
        settled := hinv.settled_retain
        complete_lt := fun id hid => Nat.lt_succ_of_lt (hinv.complete_lt id hid)
        retained := by
          intro id hid
          rcases List.mem_append.mp hid with hid | hid
          · exact List.mem_append_left _ (hinv.retained id hid)
          · rw [List.mem_singleton] at hid
            exact List.mem_append_right _ (by simp [hid])
        __ := hinv
        order := by
          have horder := hinv.order
          simp only [waits] at horder
          simpa [State.push, waits, State.resolvedWaits] using horder }

theorem Inv.waitForWrite (hinv : Inv s.pendingWorks s) :
    Inv s.waitForWrite.pendingWorks s.waitForWrite where
  lt := hinv.lt_push false
  nodup := hinv.nodup_push false
  perm := hinv.perm_push _
  __ := hinv
  complete_lt := fun id hid => Nat.lt_succ_of_lt (hinv.complete_lt id hid)
  retained := fun id hid => List.mem_append_left _ (hinv.retained id hid)
  order := by
    have horder := hinv.order
    simp only [waits, State.resolvedWaits] at horder
    simp [State.waitForWrite, State.push, waits, State.resolvedWaits, ← horder]

theorem Inv.transfer (hinv : Inv pending s) (id : ℕ) : Inv pending (step s (.transfer id)) :=
  { hinv with
    settled := by
      intro id' hid
      obtain ⟨hnot, htrans⟩ := hinv.settled id' hid
      refine ⟨hnot, ?_⟩
      change update s.ib.transferred id true id' = true
      rw [update_apply, htrans, ite_self]
    transferred := by
      intro r hr hres hw
      change update s.ib.transferred id true r.work.id = true
      rw [update_apply, hinv.transferred r hr hres hw, ite_self] }

/-- Between the steps either no wait has failed, or none is pending. -/
def Steady (s : State) : Prop :=
  Inv s.pendingWorks s ∧ (Fine s ∨ waits s.pendingWorks = [])

theorem answers_of_no_waits (hwaits : waits ws = []) : answers q ws ib = [] := by
  induction ws with
  | nil => rfl
  | cons w ws ih =>
    cases hw : w.isWrite with
    | true => simpa [answers, hw] using ih (by simpa [waits, hw] using hwaits)
    | false => simp [waits, hw] at hwaits

theorem Steady.progress (hs : Steady s) {first : Poll} (hop : Meets s (.progress first q)) :
    Steady (s.progress first q) := by
  obtain ⟨hinv, hfine⟩ := hs
  have hinv' : Inv ([] ++ s.pendingWorks) { s with ib := s.ib.poll first } :=
    hinv.polled (s.ib.polled first)
  rw [Meets] at hop
  cases hres : failed first.res with
  | true =>
    rw [if_pos hres] at hop
    obtain ⟨hlast, hnil⟩ := hinv'.visit_error (q := q) hres hop
    exact ⟨hlast, .inr (by rw [State.progress, hnil]; rfl)⟩
  | false =>
    rw [hres, if_neg Bool.false_ne_true] at hop
    rcases hfine with hfine | hnone
    · exact Inv.visit_orderly hres hinv' rfl hfine hop
    · have hanswers : answers q s.pendingWorks (s.ib.poll first) = [] :=
        answers_of_no_waits hnone
      have hlast := Inv.visit_failing (q := q) hres hinv' rfl (by simp [hanswers])
      exact ⟨hlast.1, .inr hlast.2⟩

theorem Steady.step (hs : Steady s) (op : Op) (hop : Meets s op) : Steady (step s op) := by
  cases op with
  | write res queued =>
    obtain ⟨hinv, hresolved, hwaits⟩ := hs.1.write hop
    refine ⟨hinv, ?_⟩
    change Fine (s.write res queued) ∨ waits (s.write res queued).pendingWorks = []
    rw [hwaits, Fine, hresolved]
    exact hs.2
  | waitForWrite => exact ⟨hs.1.waitForWrite, .inl hop⟩
  | transfer id => exact ⟨hs.1.transfer id, hs.2⟩
  | progress first q => exact hs.progress hop

theorem reachable_steady (h : Reachable Meets s) : Steady s := by
  induction h with
  | init => exact ⟨inv_init, .inr rfl⟩
  | step op _ hop ih => exact ih.step op hop

theorem Inv.once (hinv : Inv pending s) (hw : w ∈ s.accepted) :
    (s.promises.map (·.work)).count w + pending.count w = 1 := by
  rw [← List.count_append, hinv.perm.count_eq]
  exact List.count_eq_one_of_mem hinv.nodup hw

theorem Inv.kth_notified (hinv : Inv pending s) {k : ℕ} {r : Resolved}
    (hk : (waits s.accepted)[k]? = some r.work) (hr : r ∈ s.promises)
    (hres : r.res = .commSuccess) : k + 1 ≤ r.arrived := by
  have hwait : r.work.isWrite = false := by
    have hmem := List.mem_of_getElem? hk
    simpa using (List.mem_filter.mp hmem).2
  have hmem : r ∈ s.resolvedWaits := List.mem_filter.mpr ⟨hr, by rw [hwait, Bool.not_false]⟩
  obtain ⟨i, hi⟩ := List.mem_iff_getElem?.mp hmem
  have hat : (waits s.accepted)[i]? = some r.work := by
    rw [← hinv.order, List.getElem?_append_left (by simpa using (List.getElem?_eq_some_iff.mp hi).1),
      List.getElem?_map, hi, Option.map_some]
  have hik : i = k := by
    have hlt := (List.getElem?_eq_some_iff.mp hat).1
    exact (List.getElem?_inj hlt (List.Nodup.filter _ hinv.nodup)).mp (hat.trans hk.symm)
  exact hik ▸ hinv.notified i r hi hres

theorem futures_sound (h : Reachable Meets s) : Sound s := by
  obtain ⟨hinv, -⟩ := reachable_steady h
  exact
    { once := fun w hw => hinv.once hw
      transferred := hinv.transferred
      notified := fun k r hk hr hres => hinv.kth_notified hk hr hres
      order := ⟨_, hinv.order⟩
      owned := hinv.retained }

/-- A write and a wait that both succeed. -/
theorem futures_sound_two :
    Sound (step (step (step (step .init (.write .commSuccess true)) .waitForWrite) (.transfer 0))
      (.progress ⟨[.complete 0, .notify], .commSuccess⟩ fun _ => ⟨[], .commSuccess⟩)) :=
  futures_sound
    (.step _ (.step _ (.step _ (.step _ .init (by simp [Meets, failed])) (by
      simp [Meets, step, State.write, State.push, State.resolvedWaits, State.init, failed]))
      trivial) (by
        simp [Meets, failed, answers, step, State.write, State.waitForWrite, State.push,
          State.init]))

/-! ## Where the code fails -/

/-- An `iput` that fails behind the queue, an error of the IB layer while it points to a request,
and a notification that comes between the checks of two waits. -/
theorem not_sound_errors :
    (∃ s, Reachable (fun _ _ => True) s ∧ s.ib.retained = [0] ∧ s.pendingWorks = [] ∧
      s.accepted = [] ∧ ¬Sound s) ∧
    (∃ s, Reachable (fun _ _ => True) s ∧ s.ib.retained = [0] ∧ s.pendingWorks = [] ∧
      s.accepted = [⟨0, true⟩] ∧ ¬Sound s) ∧
    ∃ s, Reachable (fun _ _ => True) s ∧ s.accepted = [⟨0, false⟩, ⟨1, false⟩] ∧
      s.promises = [⟨⟨1, false⟩, .commSuccess, 1⟩] ∧ ¬Sound s := by
  refine ⟨⟨_, .step (.write .commSystemError true) .init trivial, rfl, rfl, rfl, ?_⟩,
    ⟨_, .step (.progress ⟨[], .commRemoteError⟩ fun _ => ⟨[], .commSuccess⟩)
      (.step (.write .commSuccess true) .init trivial) trivial, rfl, rfl, rfl, ?_⟩,
    ⟨_, .step (.progress ⟨[], .commSuccess⟩
        fun id => ⟨if id = 1 then [.notify] else [], .commSuccess⟩)
      (.step .waitForWrite (.step .waitForWrite .init trivial) trivial) trivial, rfl, rfl, ?_⟩⟩
  · intro hsound
    have howned := hsound.owned 0 (by decide)
    simp [step, State.write, failed, State.init] at howned
  · intro hsound
    have howned := hsound.owned 0 (by decide)
    revert howned
    decide
  · intro hsound
    have horder := hsound.order
    revert horder
    decide

end TorchComms.Transport
