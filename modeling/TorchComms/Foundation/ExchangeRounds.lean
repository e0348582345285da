import TorchComms.Foundation.Exchange

/-! # Programs in rounds

The programs of all parties are cut into the same number of rounds. Where a round only waits for
what the rounds before it supply, every run comes to the end of all programs. Where a party only
puts what it has from the start, or was notified of, every byte it has is final.
-/
namespace TorchComms.Foundation.Exchange

variable {β : Type} {n : ℕ} {prog : ℕ → List Action} {s : Exchange β} {memory : ℕ → ℕ → β}

/-! ### Termination -/

/-- What a party has done, with the arrivals of its puts. -/
def work (n : ℕ) (s : Exchange β) (q : ℕ) : ℕ :=
  (s.done q).length + ∑ r ∈ Finset.range n, s.delivered q r

theorem Step.work_lt {s' : Exchange β} (hstep : Step n prog s s') :
    ∑ q ∈ Finset.range n, s.work n q < ∑ q ∈ Finset.range n, s'.work n q := by
  cases hstep with
  | @act r a hr _ _ =>
    apply sum_work_lt hr
    · unfold work
      rw [done_act, if_pos rfl, List.length_append]
      exact Nat.add_lt_add_right (Nat.lt_succ_self _) _
    · intro q _
      exact Nat.add_le_add_right (prefix_act s r a q).length_le _
  | @deliver q r m hq hr _ =>
    have hle : ∀ q', s.work n q' ≤ (s.deliver q r m).work n q' := by
      intro q'
      apply Nat.add_le_add_left
      apply Finset.sum_le_sum
      exact fun r' _ => delivered_le_deliver s q r m q' r'
    apply sum_work_lt hq
    · apply Nat.add_lt_add_left
      apply sum_work_lt hr
      · rw [delivered_deliver, if_pos ⟨rfl, rfl⟩]
        exact Nat.lt_succ_self _
      · exact fun r' _ => delivered_le_deliver s q r m q r'
    · exact fun q' _ => hle q'

/-- The work of all programs. -/
def total (n : ℕ) (prog : ℕ → List Action) : ℕ :=
  ∑ q ∈ Finset.range n, ((prog q).length + ∑ r ∈ Finset.range n, (putsTo r (prog q)).length)

theorem Inv.work_le (h : Inv prog s) : ∑ q ∈ Finset.range n, s.work n q ≤ total n prog := by
  apply Finset.sum_le_sum
  intro q _
  apply Nat.add_le_add (h.done q).length_le
  apply Finset.sum_le_sum
  intro r _
  exact (h.delivered q r).trans (putsTo_mono r (h.done q)).length_le

theorem stops (run : ℕ → Exchange β) (h : Reachable n prog memory (run 0)) :
    ∃ k, ¬ Step n prog (run k) (run (k + 1)) :=
  exists_stop (Inv prog) (fun s => ∑ q ∈ Finset.range n, s.work n q) (total n prog)
    (fun _ _ hinv hstep => hinv.step hstep) (fun _ _ _ hstep => hstep.work_lt)
    (fun _ hinv => hinv.work_le) run h.inv

/-! ### Rounds -/

variable {rounds : ℕ → ℕ → List Action} {N : ℕ}

/-- The first `t` rounds of a party. -/
def upTo (rounds : ℕ → ℕ → List Action) (r t : ℕ) : List Action :=
  (List.range t).flatMap (rounds r)

theorem upTo_succ (r t : ℕ) : upTo rounds r (t + 1) = upTo rounds r t ++ rounds r t := by
  unfold upTo
  rw [List.range_succ, List.flatMap_append, List.flatMap_singleton]

theorem upTo_mono {r t t' : ℕ} (h : t ≤ t') : upTo rounds r t <+: upTo rounds r t' := by
  induction h with
  | refl => exact List.prefix_refl _
  | step _ ih =>
    rw [upTo_succ]
    exact ih.trans (List.prefix_append _ _)

/-- A program that is not done stands in one of its rounds. -/
theorem exists_round {r : ℕ} {l : List Action} (h : l <+: upTo rounds r N)
    (hne : l ≠ upTo rounds r N) :
    ∃ t < N, ∃ a ∈ rounds r t, upTo rounds r t <+: l ∧ l ++ [a] <+: upTo rounds r (t + 1) := by
  induction N with
  | zero => exact absurd (List.prefix_nil.mp h) hne
  | succ N ih =>
    by_cases hbefore : l <+: upTo rounds r N ∧ l ≠ upTo rounds r N
    · obtain ⟨t, ht, hrest⟩ := ih hbefore.1 hbefore.2
      exact ⟨t, Nat.lt_succ_of_lt ht, hrest⟩
    · have hin : upTo rounds r N <+: l := by
        rcases List.prefix_or_prefix_of_prefix h (upTo_mono (Nat.le_succ N)) with hl | hl
        · rw [not_and_not_right] at hbefore
          rw [hbefore hl]
        · exact hl
      obtain ⟨rest, hrest⟩ := h
      cases rest with
      | nil =>
        rw [List.append_nil] at hrest
        exact absurd hrest hne
      | cons a rest =>
        have hstep : l ++ [a] <+: upTo rounds r (N + 1) := by
          rw [← hrest]
          exact ⟨rest, by rw [List.append_assoc, List.singleton_append]⟩
        refine ⟨N, Nat.lt_succ_self N, a, ?_, hin, hstep⟩
        obtain ⟨part, rfl⟩ := hin
        rw [upTo_succ, List.append_assoc, List.append_cancel_left_eq] at hrest
        rw [← hrest]
        exact List.mem_append_right _ (List.mem_cons_self ..)

theorem putsTo_upTo (p r t : ℕ) :
    putsTo p (upTo rounds r t) = (List.range t).flatMap fun i => putsTo p (rounds r i) :=
  List.filterMap_flatMap

theorem count_upTo (a : Action) (r t : ℕ) : (upTo rounds r t).count a =
    ((List.range t).flatMap fun i => (rounds r i).filter (· == a)).length := by
  rw [List.count_eq_length_filter, upTo, List.filter_flatMap]

variable {before : List Action} {l l' : List Action} {α : Type*} {r x : ℕ}

variable {g : ℕ → List α}

/-- Where only two rounds have something, it is theirs. -/
theorem flatMap_two {a b : ℕ} (hlt : a < b) (hnone : ∀ i, i ≠ a → i ≠ b → g i = []) (t : ℕ) :
    (List.range t).flatMap g = (if a < t then g a else []) ++ (if b < t then g b else []) := by
  induction t with
  | zero => rfl
  | succ t ih =>
    rw [List.range_succ, List.flatMap_append, List.flatMap_singleton, ih]
    rcases Nat.lt_trichotomy t a with hta | rfl | hta
    · rw [hnone t (by omega) (by omega), if_neg (by omega), if_neg (by omega), if_neg (by omega),
        if_neg (by omega)]
      rfl
    · rw [if_neg (by omega), if_neg (by omega), if_pos (by omega), if_neg (by omega),
        List.append_nil, List.append_nil, List.nil_append]
    · rcases Nat.lt_trichotomy t b with htb | rfl | htb
      · rw [hnone t (by omega) (by omega), if_pos (by omega), if_neg (by omega),
          if_pos (by omega), if_neg (by omega), List.append_nil]
      · rw [if_pos (by omega), if_neg (by omega), if_pos (by omega), if_pos (by omega),
          List.append_nil]
      · rw [hnone t (by omega) (by omega), if_pos (by omega), if_pos (by omega),
          if_pos (by omega), if_pos (by omega), List.append_nil]

theorem flatMap_none (hnone : ∀ i, g i = []) (t : ℕ) : (List.range t).flatMap g = [] := by
  rw [List.flatMap_eq_nil_iff]
  exact fun i _ => hnone i

/-- What a round waits for, the rounds before it supply. -/
structure Supplied (n N : ℕ) (rounds : ℕ → ℕ → List Action) : Prop where
  recvCtrl : ∀ r < n, ∀ t < N, ∀ p, .recvCtrl p ∈ rounds r t →
    p < n ∧ ctrlFrom p (upTo rounds r (t + 1)) ≤ ctrlTo r (upTo rounds p t)
  waitPut : ∀ r < n, ∀ t < N, ∀ p k, .waitPut p k ∈ rounds r t →
    p < n ∧ k ≤ (putsTo p (upTo rounds r t)).length
  waitNotify : ∀ r < n, ∀ t < N, ∀ p, .waitNotify p ∈ rounds r t →
    p < n ∧ noticesFrom p (upTo rounds r (t + 1)) ≤ notices (putsTo r (upTo rounds p t))

theorem count_lt_of_snoc {a : Action} (h : l ++ [a] <+: l') : l.count a < l'.count a := by
  have hle := h.count_le a
  rwa [List.count_append, List.count_singleton_self] at hle

/-- The party whose next action is in the earliest round can go on, when all puts have arrived. -/
theorem Inv.progress (h : Inv prog s) (hprog : ∀ r < n, prog r = upTo rounds r N)
    (hsupplied : Supplied n N rounds) (hnot : ¬ AllDone n prog s) : ∃ s', Step n prog s s' := by
  by_contra hstuck
  have harrived : ∀ q < n, ∀ r < n, s.delivered q r = (putsTo r (s.done q)).length := by
    intro q hq r hr
    by_contra hne
    have hlt : s.delivered q r < (putsTo r (s.done q)).length := by
      have := h.delivered q r
      omega
    exact hstuck ⟨_, .deliver hq hr (List.getElem?_eq_getElem hlt)⟩
  have hunfinished : ∃ t, ∃ r < n, t < N ∧ ∃ a ∈ rounds r t, upTo rounds r t <+: s.done r ∧
      s.done r ++ [a] <+: upTo rounds r (t + 1) := by
    obtain ⟨r, hr⟩ := not_forall.mp hnot
    rw [Classical.not_imp] at hr
    have hdone := h.done r
    rw [hprog r hr.1] at hdone hr
    obtain ⟨t, ht, hrest⟩ := exists_round hdone hr.2
    exact ⟨t, r, hr.1, ht, hrest⟩
  classical
  obtain ⟨r, hr, ht, a, ha, hin, hnext⟩ := Nat.find_spec hunfinished
  generalize hround : Nat.find hunfinished = t at ht ha hin hnext
  have hothers : ∀ p < n, upTo rounds p t <+: s.done p := by
    intro p hp
    by_cases hfinished : s.done p = prog p
    · rw [hfinished, hprog p hp]
      exact upTo_mono ht.le
    · have hdone := h.done p
      rw [hprog p hp] at hdone hfinished
      obtain ⟨t', ht', a', ha', hin', hnext'⟩ := exists_round hdone hfinished
      have hle : Nat.find hunfinished ≤ t' :=
        Nat.find_min' hunfinished ⟨p, hp, ht', a', ha', hin', hnext'⟩
      rw [hround] at hle
      exact (upTo_mono hle).trans hin'
  have hstep : s.done r ++ [a] <+: prog r := by
    rw [hprog r hr]
    exact hnext.trans (upTo_mono ht)
  have henabled : s.Enabled r a := by
    cases a with
    | sendCtrl | put => trivial
    | recvCtrl p =>
      obtain ⟨hp, hle⟩ := hsupplied.recvCtrl r hr t ht p ha
      exact (count_lt_of_snoc hnext).trans_le (hle.trans ((hothers p hp).count_le _))
    | waitPut p k =>
      obtain ⟨hp, hle⟩ := hsupplied.waitPut r hr t ht p k ha
      change k ≤ s.delivered r p
      rw [harrived r hr p hp]
      exact hle.trans (putsTo_mono p hin).length_le
    | waitNotify p =>
      obtain ⟨hp, hle⟩ := hsupplied.waitNotify r hr t ht p ha
      change noticesFrom p (s.done r) < notices ((putsTo r (s.done p)).take (s.delivered p r))
      rw [harrived p hp r hr, List.take_length]
      exact (count_lt_of_snoc hnext).trans_le
        (hle.trans (putsTo_mono r (hothers p hp)).countP_le)
  exact hstuck ⟨_, .act hr hstep henabled⟩

/-! ### What a party has -/

variable {own : ℕ → ℕ → Prop} {final : ℕ → β}

/-- A byte that a party has from the start, or that a put has brought whose notification it has
waited for. -/
def Known (own : ℕ → ℕ → Prop) (prog : ℕ → List Action) (r : ℕ) (before : List Action) (x : ℕ) :
    Prop :=
  own r x ∨ ∃ q k m, (putsTo r (prog q))[k]? = some m ∧ m.Covers x ∧
    notices ((putsTo r (prog q)).take k) < noticesFrom q before

theorem Known.mono (h : Known own prog r l x) (hle : l <+: l') : Known own prog r l' x := by
  rcases h with hown | ⟨q, k, m, hm, hx, hlt⟩
  · exact .inl hown
  · exact .inr ⟨q, k, m, hm, hx, hlt.trans_le (hle.count_le _)⟩

/-- The parties put only what they know. -/
def Covered (n : ℕ) (own : ℕ → ℕ → Prop) (prog : ℕ → List Action) : Prop :=
  ∀ r < n, ∀ before p m, before ++ [.put p m] <+: prog r → ∀ x, m.Covers x → Known own prog r before x

/-- The bytes that a party has from the start, and those that have been put to it, are final. -/
structure Holds (own : ℕ → ℕ → Prop) (final : ℕ → β) (prog : ℕ → List Action) (s : Exchange β) :
    Prop where
  own : ∀ r x, own r x → s.memory r x = final x
  put : ∀ q r k m, k < s.delivered q r → (putsTo r (prog q))[k]? = some m →
    ∀ x, m.Covers x → s.memory r x = final x

/-- What a party knows has arrived. -/
theorem Inv.arrived (h : Inv prog s) {q r k : ℕ} (hbefore : before <+: s.done r)
    (hlt : notices ((putsTo r (prog q)).take k) < noticesFrom q before) : k < s.delivered q r := by
  by_contra hnot
  have hle := notices_take_le (putsTo r (prog q)) (Nat.le_of_not_lt hnot)
  have hwaited := h.waited q r
  have hmore : noticesFrom q before ≤ noticesFrom q (s.done r) := hbefore.count_le _
  omega

theorem Holds.of_known (hholds : Holds own final prog s) (h : Inv prog s)
    (hbefore : before <+: s.done r) (hx : Known own prog r before x) : s.memory r x = final x := by
  rcases hx with hown | ⟨q, k, m, hm, hcov, hlt⟩
  · exact hholds.own r x hown
  · exact hholds.put q r k m (h.arrived hbefore hlt) hm x hcov

theorem Holds.deliver (hholds : Holds own final prog s) (h : Inv prog s)
    (hcovered : Covered n own prog) {q r : ℕ} (hq : q < n) {m : Parcel}
    (hm : (putsTo r (s.done q))[s.delivered q r]? = some m) :
    Holds own final prog (s.deliver q r m) := by
  have hsource : ∀ x, m.Covers x → s.memory q x = final x := by
    intro x hx
    obtain ⟨before, hbefore⟩ := split_of_putsTo (List.mem_of_getElem? hm)
    have hknown := hcovered q hq before r m (hbefore.trans (h.done q)) x hx
    exact hholds.of_known h ((List.prefix_append _ _).trans hbefore) hknown
  have hkeep : ∀ p x, s.memory p x = final x → (s.deliver q r m).memory p x = final x := by
    intro p x hold
    unfold Exchange.deliver
    by_cases hp : p = r
    · subst hp
      simp only [Function.update_self]
      split
      · exact hsource x ‹_›
      · exact hold
    · simp only [Function.update_of_ne hp]
      exact hold
  constructor
  · exact fun p x hx => hkeep p x (hholds.own p x hx)
  · intro q' r' k m' hk hm' x hx
    rw [delivered_deliver] at hk
    by_cases hnew : (q' = q ∧ r' = r) ∧ k = s.delivered q r
    · obtain ⟨⟨rfl, rfl⟩, rfl⟩ := hnew
      rw [getElem?_putsTo (h.done q') hm, Option.some.injEq] at hm'
      subst hm'
      unfold Exchange.deliver
      simp only [Function.update_self, if_pos hx]
      exact hsource x hx
    · apply hkeep
      apply hholds.put q' r' k m' _ hm' x hx
      split at hk
      · rename_i heq
        obtain ⟨rfl, rfl⟩ := heq
        have hne : k ≠ s.delivered q' r' := fun hk' => hnew ⟨⟨rfl, rfl⟩, hk'⟩
        omega
      · exact hk

theorem Reachable.holds (h : Reachable n prog memory s) (hcovered : Covered n own prog)
    (hinit : ∀ r x, own r x → memory r x = final x) : Holds own final prog s := by
  induction h with
  | refl => exact ⟨hinit, fun _ _ _ _ hk => absurd hk (Nat.not_lt_zero _)⟩
  | tail hrun hstep ih =>
    have hinv := Reachable.inv hrun
    cases hstep with
    | act => exact ⟨ih.own, ih.put⟩
    | deliver hq _ hm => exact ih.deliver hinv hcovered hq hm

/-- Puts that are known when their round begins are known when they are issued. -/
theorem covered_of_rounds (hprog : ∀ r < n, prog r = upTo rounds r N)
    (hrounds : ∀ r < n, ∀ t < N, ∀ p m, .put p m ∈ rounds r t → ∀ x, m.Covers x →
      Known own prog r (upTo rounds r t) x) : Covered n own prog := by
  intro r hr before p m hbefore x hx
  rw [hprog r hr] at hbefore
  have hpart : before <+: upTo rounds r N := (List.prefix_append _ _).trans hbefore
  have hne : before ≠ upTo rounds r N := by
    intro heq
    have hlength := hbefore.length_le
    rw [heq, List.length_append, List.length_singleton] at hlength
    omega
  obtain ⟨t, ht, a, ha, hin, hnext⟩ := exists_round hpart hne
  have hsame : before ++ [a] = before ++ [.put p m] := by
    apply List.IsPrefix.eq_of_length
    · apply List.prefix_of_prefix_length_le (hnext.trans (upTo_mono ht)) hbefore
      rw [List.length_append, List.length_append]
      exact Nat.le_refl _
    · rw [List.length_append, List.length_append]
      rfl
  rw [List.append_cancel_left_eq, List.singleton_inj] at hsame
  subst hsame
  exact (hrounds r hr t ht p m ha x hx).mono hin

end TorchComms.Foundation.Exchange
