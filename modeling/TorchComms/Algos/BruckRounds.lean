import TorchComms.Algos.BruckStates
import TorchComms.Foundation.ExchangeRounds

/-! # The rounds of Bruck's exchange

The program of a rank falls into rounds, the same for all ranks. In a round all ranks do the same
thing for the same step, and wait only for what the others have done in earlier rounds.
-/
namespace TorchComms.Algos.AllGatherBrucksFF

open Foundation Exchange

variable {p sendSize r q i j b t : ℕ}

/-- The notifications of the first halves of the step before, and the handle for this step. -/
def ctrlRound (p rank i : ℕ) : List Action :=
  (if 0 < i ∧ i ≤ ceilLog2I p then [.waitNotify (srcAtStep p rank (i - 1))] else []) ++
    (if i < ceilLog2I p then [.recvCtrl (dstAtStep p rank i)] else [])

def firstRound (p sendSize rank i : ℕ) : List Action :=
  if i < ceilLog2I p then firstPuts p sendSize rank i else []

/-- The notifications of the second halves of the step before. -/
def waitRound (p rank i : ℕ) : List Action :=
  if 0 < i ∧ i ≤ ceilLog2I p then [.waitNotify (srcAtStep p rank (i - 1))] else []

def secondRound (p sendSize rank i : ℕ) : List Action :=
  if i < ceilLog2I p then secondPuts p sendSize rank i else finish p rank

/-- The four rounds of a step. -/
def slot (p sendSize rank i : ℕ) : ℕ → List Action
  | 0 => ctrlRound p rank i
  | 1 => firstRound p sendSize rank i
  | 2 => waitRound p rank i
  | _ => secondRound p sendSize rank i

def rounds (p sendSize rank : ℕ) : ℕ → List Action
  | 0 => setup p rank
  | t + 1 => slot p sendSize rank (t / 4) (t % 4)

/-- The number of rounds. -/
def nRounds (p : ℕ) : ℕ := 4 * ceilLog2I p + 5

theorem rounds_slot (i e : ℕ) (he : e < 4) :
    rounds p sendSize r (4 * i + e + 1) = slot p sendSize r i e := by
  change slot p sendSize r ((4 * i + e) / 4) ((4 * i + e) % 4) = _
  rw [show (4 * i + e) / 4 = i by omega, show (4 * i + e) % 4 = e by omega]

section

variable (hp : 2 ≤ p) (hr : r < p)
include hp hr

theorem firstPut_eq : firstPut p sendSize r = firstPuts p sendSize r 0 := by
  unfold firstPuts iputs
  rw [sendsAtStep_zero hp hr]
  rfl

theorem upTo_body (hi : i ≤ ceilLog2I p) :
    upTo (rounds p sendSize) r (4 * i + 4) =
      setup p r ++ [.recvCtrl (dstAtStep p r 0)] ++ firstPut p sendSize r ++
        (List.range i).flatMap (body p sendSize r) := by
  have hk : 1 ≤ ceilLog2I p := steps_pos
  induction i with
  | zero =>
    have hctrl : ctrlRound p r 0 = [.recvCtrl (dstAtStep p r 0)] := by
      unfold ctrlRound
      rw [if_neg (by omega), if_pos (by omega), List.nil_append]
    have hputs : firstRound p sendSize r 0 = firstPut p sendSize r := by
      unfold firstRound
      rw [if_pos (by omega), firstPut_eq hp hr]
    have hnone : waitRound p r 0 = [] := if_neg fun h => Nat.lt_irrefl 0 h.1
    rw [upTo_succ, upTo_succ, upTo_succ, upTo_succ]
    change [] ++ setup p r ++ ctrlRound p r 0 ++ firstRound p sendSize r 0 ++ waitRound p r 0 = _
    rw [hctrl, hputs, hnone]
    simp only [List.nil_append, List.append_nil, List.range_zero, List.flatMap_nil]
  | succ i ih =>
    have hsecond : rounds p sendSize r (4 * i + 4) = secondPuts p sendSize r i := by
      rw [rounds_slot i 3 (by decide)]
      exact if_pos hi
    have hctrl : rounds p sendSize r (4 * i + 5) = .waitNotify (srcAtStep p r i) ::
        if i + 1 < ceilLog2I p then [.recvCtrl (dstAtStep p r (i + 1))] else [] := by
      rw [show 4 * i + 5 = 4 * (i + 1) + 0 + 1 by omega, rounds_slot (i + 1) 0 (by decide)]
      change ctrlRound p r (i + 1) = _
      unfold ctrlRound
      rw [if_pos ⟨Nat.succ_pos i, hi⟩]
      rfl
    have hfirst : rounds p sendSize r (4 * i + 6) =
        if i + 1 < ceilLog2I p then firstPuts p sendSize r (i + 1) else [] := by
      rw [show 4 * i + 6 = 4 * (i + 1) + 1 + 1 by omega, rounds_slot (i + 1) 1 (by decide)]
      rfl
    have hwait : rounds p sendSize r (4 * i + 7) = [.waitNotify (srcAtStep p r i)] := by
      rw [show 4 * i + 7 = 4 * (i + 1) + 2 + 1 by omega, rounds_slot (i + 1) 2 (by decide)]
      exact if_pos ⟨Nat.succ_pos i, hi⟩
    rw [show 4 * (i + 1) + 4 = 4 * i + 7 + 1 by omega, upTo_succ, upTo_succ, upTo_succ, upTo_succ,
      ih (by omega), hsecond, hctrl, hfirst, hwait, List.range_succ, List.flatMap_append,
      List.flatMap_singleton]
    unfold body
    simp only [List.append_assoc, List.cons_append, List.nil_append]
    by_cases hmore : i + 1 < ceilLog2I p
    · rw [if_pos hmore, if_pos hmore, if_pos (by omega)]
      rfl
    · rw [if_neg hmore, if_neg hmore, if_neg (by omega)]
      rfl

theorem impl_eq : impl p sendSize r = upTo (rounds p sendSize) r (nRounds p) := by
  have hfinish : rounds p sendSize r (4 * ceilLog2I p + 4) = finish p r := by
    rw [rounds_slot (ceilLog2I p) 3 (by decide)]
    exact if_neg (Nat.lt_irrefl _)
  unfold nRounds impl
  rw [upTo_succ, upTo_body hp hr (Nat.le_refl _), hfinish]

end

/-! ### The puts of a step -/

theorem iputs_eq (half : ℕ → Range) (dstPeer : ℕ) (sends : List ℕ) :
    iputs half dstPeer sends = putAll dstPeer (flagLast (sends.map half)) := by
  unfold iputs putAll flagLast
  apply List.ext_getElem?
  intro j
  simp only [List.getElem?_map, List.getElem?_mapIdx, List.length_map, Option.map_map]
  rfl

/-- The parcels of a half of a step. -/
def parcels (half : ℕ → Range) (p rank step : ℕ) : List Parcel :=
  flagLast ((sendsAtStep p rank step).map half)

theorem length_parcels (half : ℕ → Range) :
    (parcels half p r i).length = (sendsAtStep p r i).length := by
  unfold parcels
  rw [length_flagLast, List.length_map]

theorem putsTo_firstPuts (q : ℕ) : putsTo q (firstPuts p sendSize r i) =
    if dstAtStep p r i = q then parcels (firstHalf sendSize) p r i else [] := by
  unfold firstPuts
  rw [iputs_eq, putsTo_putAll]
  rfl

theorem putsTo_secondPuts (q : ℕ) : putsTo q (secondPuts p sendSize r i) =
    if dstAtStep p r i = q then parcels (secondHalf sendSize) p r i else [] := by
  unfold secondPuts
  rw [iputs_eq, putsTo_putAll]
  rfl

/-! ### What the rounds hold -/

theorem putsTo_finish (q : ℕ) : putsTo q (finish p r) = [] := by
  unfold putsTo
  rw [List.filterMap_eq_nil_iff]
  intro a ha
  obtain ⟨i, _, hi⟩ := List.mem_flatMap.mp ha
  simp only [List.mem_cons, List.not_mem_nil, or_false] at hi
  rcases hi with rfl | rfl <;> rfl

theorem putsTo_setup (q : ℕ) : putsTo q (setup p r) = [] := by
  unfold putsTo setup
  rw [List.filterMap_eq_nil_iff]
  intro a ha
  obtain ⟨i, _, rfl⟩ := List.mem_map.mp ha
  rfl

theorem putsTo_slot (q e : ℕ) (he : e < 4) : putsTo q (slot p sendSize r i e) =
    if i < ceilLog2I p ∧ dstAtStep p r i = q ∧ (e = 1 ∨ e = 3) then
      parcels (if e = 1 then firstHalf sendSize else secondHalf sendSize) p r i
    else [] := by
  have hcases : e = 0 ∨ e = 1 ∨ e = 2 ∨ e = 3 := by omega
  rcases hcases with rfl | rfl | rfl | rfl
  · rw [if_neg (by omega)]
    change putsTo q (ctrlRound p r i) = []
    unfold ctrlRound
    split <;> split <;> rfl
  · change putsTo q (firstRound p sendSize r i) = _
    unfold firstRound
    by_cases hi : i < ceilLog2I p
    · rw [if_pos hi, putsTo_firstPuts]
      simp [hi]
    · rw [if_neg hi, if_neg fun h => hi h.1]
      rfl
  · rw [if_neg (by omega)]
    change putsTo q (waitRound p r i) = []
    unfold waitRound
    split <;> rfl
  · change putsTo q (secondRound p sendSize r i) = _
    unfold secondRound
    by_cases hi : i < ceilLog2I p
    · rw [if_pos hi, putsTo_secondPuts]
      simp [hi]
    · rw [if_neg hi, putsTo_finish, if_neg fun h => hi h.1]

theorem round_cases (t : ℕ) : t = 0 ∨ ∃ i e, e < 4 ∧ t = 4 * i + e + 1 := by
  cases t with
  | zero => exact .inl rfl
  | succ t => exact .inr ⟨t / 4, t % 4, Nat.mod_lt _ (by decide), by omega⟩

theorem putsTo_upTo_src (hp : 2 ≤ p) (hr : r < p) (hi : i < ceilLog2I p) (t : ℕ) :
    putsTo r (upTo (rounds p sendSize) (srcAtStep p r i) t) =
      (if 4 * i + 2 < t then parcels (firstHalf sendSize) p (srcAtStep p r i) i else []) ++
        (if 4 * i + 4 < t then parcels (secondHalf sendSize) p (srcAtStep p r i) i else []) := by
  have hdst : ∀ {j}, j < ceilLog2I p → dstAtStep p (srcAtStep p r i) j = r → j = i := by
    intro j hj heq
    have hsrc := (dst_eq_iff hp hr (src_lt hp)).mp heq
    exact (src_inj hp hi hj hsrc).symm
  have hfirst : putsTo r (rounds p sendSize (srcAtStep p r i) (4 * i + 2)) =
      parcels (firstHalf sendSize) p (srcAtStep p r i) i := by
    rw [rounds_slot i 1 (by decide), putsTo_slot r 1 (by decide),
      if_pos ⟨hi, dst_src hp hr, .inl rfl⟩]
    rfl
  have hsecond : putsTo r (rounds p sendSize (srcAtStep p r i) (4 * i + 4)) =
      parcels (secondHalf sendSize) p (srcAtStep p r i) i := by
    rw [rounds_slot i 3 (by decide), putsTo_slot r 3 (by decide),
      if_pos ⟨hi, dst_src hp hr, .inr rfl⟩]
    rfl
  rw [putsTo_upTo, flatMap_two (a := 4 * i + 2) (b := 4 * i + 4) (by omega), hfirst, hsecond]
  intro t ht ht'
  rcases round_cases t with rfl | ⟨j, e, he, rfl⟩
  · exact putsTo_setup r
  · rw [rounds_slot j e he, putsTo_slot r e he, if_neg]
    rintro ⟨hj, heq, hkind⟩
    have := hdst hj heq
    omega

theorem putsTo_upTo_other (hp : 2 ≤ p) (hr : r < p) (hq : q < p)
    (hnone : ∀ i < ceilLog2I p, q ≠ srcAtStep p r i) (t : ℕ) :
    putsTo r (upTo (rounds p sendSize) q t) = [] := by
  rw [putsTo_upTo]
  apply flatMap_none
  intro t
  rcases round_cases t with rfl | ⟨j, e, he, rfl⟩
  · exact putsTo_setup r
  · rw [rounds_slot j e he, putsTo_slot r e he, if_neg]
    rintro ⟨hj, heq, _⟩
    exact hnone j hj ((dst_eq_iff hp hr hq).mp heq)

variable {a : Action} {l : List Action}

theorem filter_of_not_mem (h : a ∉ l) : l.filter (· == a) = [] := by
  rw [List.filter_eq_nil_iff]
  intro b hb heq
  rw [beq_iff_eq] at heq
  exact h (heq ▸ hb)

theorem not_mem_iputs {half : ℕ → Range} {sends : List ℕ}
    (h : ∀ m, a ≠ .put q m) : a ∉ iputs half q sends := by
  intro ha
  rw [iputs_eq, putAll] at ha
  obtain ⟨m, _, rfl⟩ := List.mem_map.mp ha
  exact h m rfl

theorem mem_finish (h : a ∈ finish p r) : ∃ i < ceilLog2I p,
    a = .waitPut (dstAtStep p r i) (sendsAtStep p r i).length ∨
      a = .waitPut (dstAtStep p r i) (2 * (sendsAtStep p r i).length) := by
  obtain ⟨i, hi, ha⟩ := List.mem_flatMap.mp h
  simp only [List.mem_cons, List.not_mem_nil, or_false] at ha
  exact ⟨i, List.mem_range.mp hi, ha⟩

theorem filter_waitNotify (e : ℕ) (he : e < 4) :
    (slot p sendSize r i e).filter (· == .waitNotify q) =
      if (0 < i ∧ i ≤ ceilLog2I p) ∧ srcAtStep p r (i - 1) = q ∧ (e = 0 ∨ e = 2) then
        [.waitNotify q]
      else [] := by
  have hcases : e = 0 ∨ e = 1 ∨ e = 2 ∨ e = 3 := by omega
  rcases hcases with rfl | rfl | rfl | rfl
  · change (ctrlRound p r i).filter _ = _
    unfold ctrlRound
    by_cases hi : 0 < i ∧ i ≤ ceilLog2I p <;> by_cases hq : srcAtStep p r (i - 1) = q <;>
      by_cases hk : i < ceilLog2I p <;> simp [hi, hq, hk]
  · rw [if_neg (by omega)]
    change (firstRound p sendSize r i).filter _ = _
    unfold firstRound
    split
    · exact filter_of_not_mem (not_mem_iputs nofun)
    · rfl
  · change (waitRound p r i).filter _ = _
    unfold waitRound
    by_cases hi : 0 < i ∧ i ≤ ceilLog2I p <;> by_cases hq : srcAtStep p r (i - 1) = q <;>
      simp [hi, hq]
  · rw [if_neg (by omega)]
    change (secondRound p sendSize r i).filter _ = _
    unfold secondRound
    split
    · exact filter_of_not_mem (not_mem_iputs nofun)
    · apply filter_of_not_mem
      intro h
      obtain ⟨i, _, ha | ha⟩ := mem_finish h <;> cases ha

theorem filter_recvCtrl (e : ℕ) (he : e < 4) :
    (slot p sendSize r i e).filter (· == .recvCtrl q) =
      if i < ceilLog2I p ∧ dstAtStep p r i = q ∧ e = 0 then [.recvCtrl q] else [] := by
  have hcases : e = 0 ∨ e = 1 ∨ e = 2 ∨ e = 3 := by omega
  rcases hcases with rfl | rfl | rfl | rfl
  · change (ctrlRound p r i).filter _ = _
    unfold ctrlRound
    by_cases hi : 0 < i ∧ i ≤ ceilLog2I p <;> by_cases hq : dstAtStep p r i = q <;>
      by_cases hk : i < ceilLog2I p <;> simp [hi, hq, hk]
  · rw [if_neg (by omega)]
    change (firstRound p sendSize r i).filter _ = _
    unfold firstRound
    split
    · exact filter_of_not_mem (not_mem_iputs nofun)
    · rfl
  · rw [if_neg (by omega)]
    change (waitRound p r i).filter _ = _
    unfold waitRound
    split <;> rfl
  · rw [if_neg (by omega)]
    change (secondRound p sendSize r i).filter _ = _
    unfold secondRound
    split
    · exact filter_of_not_mem (not_mem_iputs nofun)
    · apply filter_of_not_mem
      intro h
      obtain ⟨i, _, ha | ha⟩ := mem_finish h <;> cases ha

theorem filter_setup (h : ∀ q, a ≠ .sendCtrl q) : (setup p r).filter (· == a) = [] := by
  apply filter_of_not_mem
  intro ha
  obtain ⟨i, _, rfl⟩ := List.mem_map.mp ha
  exact h _ rfl

theorem mem_of_filter (h : a ∈ l) : l.filter (· == a) ≠ [] := by
  intro hnil
  have hmem : a ∈ l.filter (· == a) := List.mem_filter.mpr ⟨h, beq_self_eq_true a⟩
  rw [hnil] at hmem
  cases hmem

theorem round_of_waitNotify (h : Action.waitNotify q ∈ rounds p sendSize r t) :
    ∃ i < ceilLog2I p, q = srcAtStep p r i ∧ (t = 4 * i + 5 ∨ t = 4 * i + 7) := by
  rcases round_cases t with rfl | ⟨i, e, he, rfl⟩
  · exact absurd (filter_setup (by nofun)) (mem_of_filter h)
  · rw [rounds_slot i e he] at h
    have hne := mem_of_filter h
    rw [filter_waitNotify e he, ne_eq, ite_eq_right_iff, Classical.not_imp] at hne
    obtain ⟨⟨hi, hq, hkind⟩, _⟩ := hne
    exact ⟨i - 1, by omega, hq.symm, by omega⟩

theorem round_of_recvCtrl (h : Action.recvCtrl q ∈ rounds p sendSize r t) :
    ∃ i < ceilLog2I p, q = dstAtStep p r i ∧ t = 4 * i + 1 := by
  rcases round_cases t with rfl | ⟨i, e, he, rfl⟩
  · exact absurd (filter_setup (by nofun)) (mem_of_filter h)
  · rw [rounds_slot i e he] at h
    have hne := mem_of_filter h
    rw [filter_recvCtrl e he, ne_eq, ite_eq_right_iff, Classical.not_imp] at hne
    obtain ⟨⟨hi, hq, hkind⟩, _⟩ := hne
    exact ⟨i, hi, hq.symm, by omega⟩

theorem noticesFrom_upTo (hp : 2 ≤ p) (hi : i < ceilLog2I p) (t : ℕ) :
    noticesFrom (srcAtStep p r i) (upTo (rounds p sendSize) r t) =
      (if 4 * i + 5 < t then 1 else 0) + (if 4 * i + 7 < t then 1 else 0) := by
  have hround : ∀ j e, e < 4 →
      (rounds p sendSize r (4 * j + e + 1)).filter (· == .waitNotify (srcAtStep p r i)) =
        if j = i + 1 ∧ (e = 0 ∨ e = 2) then [.waitNotify (srcAtStep p r i)] else [] := by
    intro j e he
    rw [rounds_slot j e he, filter_waitNotify e he]
    congr 1
    apply propext
    constructor
    · rintro ⟨hj, heq, hkind⟩
      have := src_inj hp (by omega) hi heq
      exact ⟨by omega, hkind⟩
    · rintro ⟨rfl, hkind⟩
      exact ⟨⟨by omega, by omega⟩, by rw [Nat.add_sub_cancel], hkind⟩
  have hfirst := hround (i + 1) 0 (by decide)
  have hsecond := hround (i + 1) 2 (by decide)
  rw [if_pos ⟨rfl, .inl rfl⟩] at hfirst
  rw [if_pos ⟨rfl, .inr rfl⟩] at hsecond
  unfold noticesFrom
  rw [count_upTo, flatMap_two (a := 4 * i + 5) (b := 4 * i + 7) (by omega),
    show 4 * i + 5 = 4 * (i + 1) + 0 + 1 by omega, show 4 * i + 7 = 4 * (i + 1) + 2 + 1 by omega,
    hfirst, hsecond, List.length_append]
  · congr 1 <;> split <;> rfl
  · intro t ht ht'
    rcases round_cases t with rfl | ⟨j, e, he, rfl⟩
    · exact filter_setup nofun
    · rw [hround j e he, if_neg]
      rintro ⟨rfl, hkind⟩
      omega

theorem ctrlFrom_upTo (hp : 2 ≤ p) (hr : r < p) (hi : i < ceilLog2I p) :
    ctrlFrom (dstAtStep p r i) (upTo (rounds p sendSize) r (4 * i + 2)) ≤ 1 := by
  have hround : ∀ j e, e < 4 → 4 * j + e + 1 ≠ 4 * i + 1 →
      (rounds p sendSize r (4 * j + e + 1)).filter (· == .recvCtrl (dstAtStep p r i)) = [] := by
    intro j e he hne
    rw [rounds_slot j e he, filter_recvCtrl e he, if_neg]
    rintro ⟨hj, heq, rfl⟩
    have hsrc := (dst_eq_iff hp (dst_lt hp) hr).mp heq
    have hstep := src_inj hp hi hj ((src_dst hp hr).trans hsrc)
    omega
  unfold ctrlFrom
  rw [count_upTo, flatMap_two (a := 4 * i + 1) (b := 4 * i + 2) (by omega), if_pos (by omega),
    if_neg (by omega), List.append_nil]
  · rw [show 4 * i + 1 = 4 * i + 0 + 1 by omega, rounds_slot i 0 (by decide),
      filter_recvCtrl 0 (by decide)]
    split <;> simp
  · intro t ht _
    rcases round_cases t with rfl | ⟨j, e, he, rfl⟩
    · exact filter_setup nofun
    · exact hround j e he ht

end TorchComms.Algos.AllGatherBrucksFF
