import TorchComms.Algos.RingDelivery

/-! # What the ring delivers

With steps of at least one byte the ring delivers: a step is forwarded when its notification has
been taken, every put meets the notification that is waited for, and all ranks end with all blocks.
A configuration that splits a block into steps of no bytes divides by zero.
-/
namespace TorchComms.Algos.AllGatherRing

variable {c : Config} {sp : Split}

/-! ### The split -/

/-- The steps of a block lie in it, none is empty, and each byte belongs to one of them. -/
structure Partitions (c : Config) (sp : Split) : Prop where
  within : ∀ i < sp.stepsPerBlock, ∀ b, 1 ≤ (c.elem sp b i).size ∧
    (c.elem sp b i).offset + (c.elem sp b i).size ≤ (b + 1) * c.sendSize
  unique : ∀ b, ∀ y < c.sendSize,
    ∃! i, i < sp.stepsPerBlock ∧ (c.elem sp b i).Covers (b * c.sendSize + y)

/-- The block fits into steps of the configured size, one byte at least, and an `int` can count
them. -/
def Config.Splits (c : Config) : Prop :=
  c.sendSize ≤ c.MIN_SPLIT_SIZE ∨
    1 ≤ c.NUM_SPLIT ∧ c.NUM_SPLIT ≤ c.sendSize ∧
      (c.sendSize + c.sendSize / c.NUM_SPLIT.toNat - 1) / (c.sendSize / c.NUM_SPLIT.toNat) < 2 ^ 31

theorem toSize_eq (h : 0 ≤ c.NUM_SPLIT) : toSize c.NUM_SPLIT = c.NUM_SPLIT.toNat := by
  have := c.NUM_SPLIT_int
  unfold toSize
  rw [Int.emod_eq_of_lt h (by omega)]

theorem sendSize_lt : c.sendSize < 2 ^ 63 := by
  have hfits := c.recvbuff_fits
  have hle : 2 * c.sendSize ≤ c.nRanks * c.sendSize := Nat.mul_le_mul_right _ c.nRanks_ge
  omega

theorem sendSize_lt_toSize (h : c.NUM_SPLIT < 0) : c.sendSize < toSize c.NUM_SPLIT := by
  have hint := c.NUM_SPLIT_int
  have hsize := sendSize_lt (c := c)
  have heq : c.NUM_SPLIT % 2 ^ 64 = c.NUM_SPLIT + 2 ^ 64 := by
    rw [← Int.add_emod_right, Int.emod_eq_of_lt (by omega) (by omega)]
  unfold toSize
  rw [heq]
  omega

structure Good (c : Config) (sp : Split) : Prop where
  step_pos : 1 ≤ sp.stepSize
  steps_eq : sp.stepsPerBlock = (c.sendSize + sp.stepSize - 1) / sp.stepSize
  steps_pos : 1 ≤ sp.stepsPerBlock

theorem good_of_split (h : c.split = .ok sp) : Good c sp := by
  unfold Config.split at h
  cases hstep : c.stepSize with
  | error e =>
    rw [hstep] at h
    cases h
  | ok stepSize =>
    rw [hstep] at h
    simp only [bind, Except.bind, pure, Except.pure] at h
    split at h
    · cases h
    · rename_i hne
      cases h
      have hsize := c.sendSize_pos
      have hone : 1 ≤ (c.sendSize + stepSize - 1) / stepSize :=
        (Nat.le_div_iff_mul_le (by omega)).mpr (by omega)
      constructor
      · exact Nat.pos_of_ne_zero hne
      · exact Nat.max_eq_right hone
      · exact Nat.le_max_left 1 _

theorem Good.partitions (h : Good c sp) : Partitions c sp := by
  have hstep := h.step_pos
  have hlt : ∀ i, i < sp.stepsPerBlock ↔ i * sp.stepSize < c.sendSize := by
    intro i
    rw [h.steps_eq, Nat.lt_div_iff_mul_lt (by omega)]
    omega
  constructor
  · intro i hi b
    have := (hlt i).mp hi
    simp only [Config.elem]
    rw [Nat.succ_mul]
    omega
  · intro b y hy
    use y / sp.stepSize
    have hdiv := Nat.div_add_mod y sp.stepSize
    have hmod := Nat.mod_lt y hstep
    rw [Nat.mul_comm] at hdiv
    constructor
    · simp only [hlt, PutQElem.Covers, Config.elem]
      omega
    · rintro i ⟨hi, hle, hcov⟩
      simp only [Config.elem] at hle hcov
      apply Eq.symm
      apply Nat.div_eq_of_lt_le
      · omega
      · rw [Nat.succ_mul]
        omega

theorem splits_iff : (∃ sp, c.split = .ok sp ∧ sp.stepsPerBlock < 2 ^ 31) ↔ c.Splits := by
  have hpos := c.sendSize_pos
  unfold Config.split Config.stepSize Config.Splits
  by_cases hmin : c.sendSize ≤ c.MIN_SPLIT_SIZE
  · have hone : (c.sendSize + c.sendSize - 1) / c.sendSize = 1 := by
      apply Nat.div_eq_of_lt_le <;> omega
    simp only [hmin, if_true, bind, Except.bind, true_or, iff_true]
    rw [if_neg (by omega), hone]
    exact ⟨_, rfl, by simp⟩
  · simp only [hmin, if_false, false_or, bind, Except.bind]
    by_cases hzero : toSize c.NUM_SPLIT = 0
    · rw [if_pos hzero]
      constructor
      · rintro ⟨_, h, _⟩
        cases h
      · rintro ⟨hone, _⟩
        rw [toSize_eq (by omega)] at hzero
        omega
    · rw [if_neg hzero]
      simp only
      by_cases hneg : c.NUM_SPLIT < 0
      · rw [if_pos (Nat.div_eq_of_lt (sendSize_lt_toSize hneg))]
        constructor
        · rintro ⟨_, h, _⟩
          cases h
        · rintro ⟨hone, _⟩
          omega
      · rw [toSize_eq (by omega)] at hzero ⊢
        by_cases hbig : c.sendSize < c.NUM_SPLIT.toNat
        · rw [if_pos (Nat.div_eq_of_lt hbig)]
          constructor
          · rintro ⟨_, h, _⟩
            cases h
          · rintro ⟨_, hle, _⟩
            omega
        · have hstep : 1 ≤ c.sendSize / c.NUM_SPLIT.toNat :=
            (Nat.le_div_iff_mul_le (by omega)).mpr (by omega)
          rw [if_neg (by omega)]
          constructor
          · rintro ⟨sp, h, hlt⟩
            cases h
            simp only at hlt
            exact ⟨by omega, by omega, by omega⟩
          · rintro ⟨_, _, hlt⟩
            exact ⟨_, rfl, by simp only; omega⟩

namespace Ring

variable {β : Type} {init : ℕ → ℕ → β} {s : Ring β} {r : ℕ}

/-! ### The end of a run -/

/-- What a rank queues behind its own block, it was notified of, and it is what the left neighbour
has put to it under that notification. -/
def ForwardsNotified (c : Config) (sp : Split) (s : Ring β) : Prop :=
  ∀ r < c.nRanks, ∀ k e,
    (s.issued r ++ (s.rank r).putQ)[sp.stepsPerBlock + k]? = some e →
      k < s.consumed r ∧ (s.issued (c.left r))[k]? = some e

def AllFinished (c : Config) (s : Ring β) : Prop := ∀ r < c.nRanks, (s.rank r).phase = .finish

/-- All puts have arrived, and each has met a notification that was waited for. -/
def Balanced (c : Config) (sp : Split) (s : Ring β) : Prop :=
  ∀ r < c.nRanks, (s.issued r).length = (c.nRanks - 1) * sp.stepsPerBlock ∧
    s.delivered r = (s.issued r).length ∧ s.consumed (c.right r) = (s.issued r).length

def Gathered (c : Config) (init : ℕ → ℕ → β) (s : Ring β) : Prop :=
  ∀ r < c.nRanks, ∀ x < c.nRanks * c.sendSize, s.recvbuff r x = init (x / c.sendSize) x

/-- Polling leads to a state in which something gets done. -/
def Progresses (c : Config) (sp : Split) (s : Ring β) : Prop :=
  ∃ t u, Relation.ReflTransGen (Polls c) s t ∧ Moves c sp t u

theorem Inv.forwardsNotified (h : Inv c sp init s) : ForwardsNotified c sp s := by
  intro r hr k e he
  have hinv := h r hr
  have hpos : 1 ≤ sp.stepsPerBlock := by
    have := hinv.inBlock
    omega
  by_cases hw : Waiting (s.rank r)
  · obtain ⟨hissued, hputQ, _⟩ := hinv.waiting hw
    have hempty : s.issued r ++ (s.rank r).putQ = [] := by
      rw [List.append_eq_nil_iff]
      exact ⟨hissued, hputQ⟩
    rw [hempty] at he
    cases he
  · have hqueue : s.issued r ++ (s.rank r).putQ =
        (List.range (c.queued sp (s.consumed r))).map (c.put sp r) := hinv.queue hw
    rw [hqueue, List.getElem?_map, Option.map_eq_some_iff] at he
    obtain ⟨j, hj, rfl⟩ := he
    obtain ⟨hlt, rfl⟩ := List.getElem?_eq_some_iff.mp hj
    rw [List.length_range, Config.queued] at hlt
    rw [List.getElem_range]
    have hk : k < s.consumed r := by omega
    have hleft := h (c.left r) (Config.left_lt r)
    have harrived : s.consumed r ≤ s.delivered (c.left r) := hinv.arrived
    have hsent : s.delivered (c.left r) ≤ (s.issued (c.left r)).length := hleft.sent
    have htotal : (s.issued (c.left r)).length ≤ c.total sp := hleft.length_le
    constructor
    · exact hk
    · have hget := List.getElem?_eq_getElem (l := s.issued (c.left r)) (i := k) (by omega)
      rw [hget, Nat.add_comm, Config.put_add hpos hr (by omega)]
      congr 1
      exact (hleft.issued_eq hget).1

theorem Inv.finished (h : Inv c sp init s) (hr : r < c.nRanks)
    (hfinish : (s.rank r).phase = .finish) :
    s.consumed r = c.total sp ∧ (s.issued r).length = c.total sp := by
  have hinv := h r hr
  obtain ⟨hputQ, _, hblock⟩ := hinv.finished hfinish
  have hcounter : s.consumed r =
      (s.rank r).blockNum * sp.stepsPerBlock + (s.rank r).stepInBlock := hinv.counter
  have hge : c.total sp ≤ (s.rank r).blockNum * sp.stepsPerBlock := Nat.mul_le_mul_right _ hblock
  have harrived : s.consumed r ≤ s.delivered (c.left r) := hinv.arrived
  have hleft := h (c.left r) (Config.left_lt r)
  have hsent : s.delivered (c.left r) ≤ (s.issued (c.left r)).length := hleft.sent
  have hlength : (s.issued (c.left r)).length ≤ c.total sp := hleft.length_le
  have hconsumed : s.consumed r = c.total sp := by omega
  have hnot : ¬ Waiting (s.rank r) := not_waiting_of_phase hfinish nofun nofun
  have hqueue : s.issued r ++ (s.rank r).putQ =
      (List.range (c.queued sp (s.consumed r))).map (c.put sp r) := hinv.queue hnot
  have hputQ' : (s.rank r).putQ = [] := hputQ
  rw [hputQ', List.append_nil] at hqueue
  constructor
  · exact hconsumed
  · rw [hqueue, List.length_map, List.length_range, hconsumed]
    have hn := c.nRanks_ge
    have heq : c.total sp = (c.nRanks - 2) * sp.stepsPerBlock + sp.stepsPerBlock := by
      rw [← Nat.succ_mul, Config.total]
      congr 1
      omega
    unfold Config.queued
    omega

theorem Inv.balanced (h : Inv c sp init s) (hall : AllFinished c s) : Balanced c sp s := by
  intro r hr
  have hlength := (h.finished hr (hall r hr)).2
  have hconsumed := (h.finished (Config.right_lt r) (hall _ (Config.right_lt r))).1
  have hinv := h r hr
  have hright := h (c.right r) (Config.right_lt r)
  have hsent : s.delivered r ≤ (s.issued r).length := hinv.sent
  have harrived : s.consumed (c.right r) ≤ s.delivered (c.left (c.right r)) := hright.arrived
  rw [Config.left_right hr] at harrived
  refine ⟨hlength, ?_, ?_⟩
  · omega
  · omega

/-- Each block but its own has come to a rank under some number. -/
theorem exists_put (hr : r < c.nRanks) {b i : ℕ}
    (hb : b < c.nRanks) (hne : b ≠ r) (hi : i < sp.stepsPerBlock) :
    ∃ k < c.total sp, c.put sp (c.left r) k = c.elem sp b i := by
  have hn := c.nRanks_ge
  obtain ⟨d, hd, hblock⟩ : ∃ d < c.nRanks - 1, (c.left r + c.nRanks - d) % c.nRanks = b := by
    rw [Config.left_eq hr]
    by_cases hlt : b < r
    · use r - 1 - b
      constructor
      · omega
      · rw [if_neg (by omega), show r - 1 + c.nRanks - (r - 1 - b) = b + c.nRanks by omega,
          Nat.add_mod_right, Nat.mod_eq_of_lt hb]
    · use r + c.nRanks - 1 - b
      constructor
      · omega
      · split
        · rw [show c.nRanks - 1 + c.nRanks - (r + c.nRanks - 1 - b) = b + c.nRanks by omega,
            Nat.add_mod_right, Nat.mod_eq_of_lt hb]
        · rw [show r - 1 + c.nRanks - (r + c.nRanks - 1 - b) = b by omega, Nat.mod_eq_of_lt hb]
  obtain ⟨hdiv, hmod⟩ := div_counter (b := d) hi
  use d * sp.stepsPerBlock + i
  constructor
  · have hle : (d + 1) * sp.stepsPerBlock ≤ c.total sp := Nat.mul_le_mul_right _ (by omega)
    rw [Nat.succ_mul] at hle
    omega
  · rw [Config.put, hdiv, hmod, hblock]

theorem Inv.gathered (h : Inv c sp init s) (hgood : Good c sp) (hall : AllFinished c s) :
    Gathered c init s := by
  intro r hr x hx
  have hinv := h r hr
  have hpos := c.sendSize_pos
  by_cases hown : x / c.sendSize = r
  · exact hinv.own x hown
  · have hblock : x / c.sendSize < c.nRanks := (Nat.div_lt_iff_lt_mul hpos).mpr hx
    obtain ⟨i, ⟨hi, hcov⟩, _⟩ :=
      hgood.partitions.unique (x / c.sendSize) (x % c.sendSize) (Nat.mod_lt x hpos)
    rw [Nat.mul_comm, Nat.div_add_mod] at hcov
    obtain ⟨k, hk, hput⟩ := exists_put hr hblock hown hi
    have hbalanced := h.balanced hall (c.left r) (Config.left_lt r)
    have hlength := (h.finished (Config.left_lt r) (hall _ (Config.left_lt r))).2
    apply hinv.held k
    · unfold view
      simp only
      omega
    · rwa [hput]

/-! ### Progress -/

@[simp] theorem rank_setPhase (s : Ring β) (r : ℕ) (phase : Phase) :
    (s.setPhase r phase).rank r = { s.rank r with phase := phase } :=
  Function.update_self ..

theorem Progresses.of_moves {u : Ring β} (h : Moves c sp s u) : Progresses c sp s :=
  ⟨s, u, .refl, h⟩

theorem Progresses.of_polls {t : Ring β} (hpoll : Polls c s t) (h : Progresses c sp t) :
    Progresses c sp s := by
  obtain ⟨t', u, hpolls, hmoves⟩ := h
  exact ⟨t', u, hpolls.head hpoll, hmoves⟩

theorem progresses_of_putQ (hr : r < c.nRanks) (hphase : (s.rank r).phase = .issue)
    (hq : (s.rank r).putQ ≠ []) : Progresses c sp s := by
  obtain ⟨e, rest, hq⟩ := List.exists_cons_of_ne_nil hq
  exact .of_moves (.iput hr hphase hq)

theorem progresses_of_test (hr : r < c.nRanks) (hphase : (s.rank r).phase = .test)
    (hall : s.delivered r = (s.issued r).length) (hreq : (s.rank r).iputReqs ≤ (s.issued r).length)
    (hbusy : (s.rank r).iputReqs ≠ 0 ∨ (s.rank r).putQ ≠ []) : Progresses c sp s := by
  by_cases hzero : (s.rank r).iputReqs = 0
  · apply Progresses.of_polls (.pending hr hphase)
    apply progresses_of_putQ hr
    · rw [rank_setPhase]
    · rw [rank_setPhase]
      exact hbusy.resolve_left (not_not.mpr hzero)
  · exact .of_moves (.completed hr hphase hzero (by omega))

/-- A rank that has something to do. -/
def Busy (c : Config) (s : Ring β) (r : ℕ) : Prop :=
  s.consumed r < s.delivered (c.left r) ∨ (s.rank r).iputReqs ≠ 0 ∨ (s.rank r).putQ ≠ []

theorem progresses_of_check (hr : r < c.nRanks) (hphase : (s.rank r).phase = .check)
    (hall : s.delivered r = (s.issued r).length) (hreq : (s.rank r).iputReqs ≤ (s.issued r).length)
    (harrived : s.consumed r ≤ s.delivered (c.left r)) (hbusy : Busy c s r) :
    Progresses c sp s := by
  rcases Nat.lt_or_eq_of_le harrived with hlt | heq
  · exact .of_moves (.notified hr hphase hlt)
  · apply Progresses.of_polls (.quiet hr hphase heq)
    apply progresses_of_test hr
    · rw [rank_setPhase]
    · exact hall
    · rw [rank_setPhase]
      exact hreq
    · rw [rank_setPhase]
      exact hbusy.resolve_left (by omega)

theorem progresses_of_issue (hr : r < c.nRanks) (hphase : (s.rank r).phase = .issue)
    (hall : s.delivered r = (s.issued r).length) (hreq : (s.rank r).iputReqs ≤ (s.issued r).length)
    (harrived : s.consumed r ≤ s.delivered (c.left r))
    (hbusy : Busy c s r ∨ c.head (s.rank r) = .finish) : Progresses c sp s := by
  by_cases hq : (s.rank r).putQ = []
  · by_cases hhead : c.head (s.rank r) = .finish
    · exact .of_moves (.exit hr hphase hq hhead)
    · have hcheck : c.head (s.rank r) = .check := by
        unfold Config.head at hhead ⊢
        split
        · rfl
        · rw [if_neg ‹_›] at hhead
          exact absurd rfl hhead
      apply Progresses.of_polls (.again hr hphase hq hcheck)
      apply progresses_of_check hr
      · rw [rank_setPhase]
      · exact hall
      · rw [rank_setPhase]
        exact hreq
      · exact harrived
      · unfold Busy
        rw [rank_setPhase]
        exact hbusy.resolve_right hhead
  · exact progresses_of_putQ hr hphase hq

theorem progresses_of_testing (hr : r < c.nRanks) (hphase : (s.rank r).phase = .test)
    (hall : s.delivered r = (s.issued r).length) (hreq : (s.rank r).iputReqs ≤ (s.issued r).length)
    (harrived : s.consumed r ≤ s.delivered (c.left r))
    (hbusy : Busy c s r ∨ c.head (s.rank r) = .finish) : Progresses c sp s := by
  apply Progresses.of_polls (.pending hr hphase)
  apply progresses_of_issue hr
  · rw [rank_setPhase]
  · exact hall
  · rw [rank_setPhase]
    exact hreq
  · exact harrived
  · unfold Busy
    rw [rank_setPhase]
    exact hbusy

theorem Inv.progresses (h : Inv c sp init s) (hr : r < c.nRanks) (hnot : ¬ Waiting (s.rank r))
    (hfinish : (s.rank r).phase ≠ .finish) (hall : s.delivered r = (s.issued r).length)
    (hbusy : Busy c s r ∨ c.head (s.rank r) = .finish) : Progresses c sp s := by
  have hreq : (s.rank r).iputReqs ≤ (s.issued r).length := (h r hr).requests
  have harrived : s.consumed r ≤ s.delivered (c.left r) := (h r hr).arrived
  cases hphase : (s.rank r).phase with
  | init => exact absurd (.inl hphase) hnot
  | waitCtrl => exact absurd (.inr hphase) hnot
  | finish => exact absurd hphase hfinish
  | issue => exact progresses_of_issue hr hphase hall hreq harrived hbusy
  | test => exact progresses_of_testing hr hphase hall hreq harrived hbusy
  | check =>
    rcases Nat.lt_or_eq_of_le harrived with hlt | heq
    · exact .of_moves (.notified hr hphase hlt)
    · apply Progresses.of_polls (.quiet hr hphase heq)
      apply progresses_of_testing hr
      · rw [rank_setPhase]
      · exact hall
      · rw [rank_setPhase]
        exact hreq
      · exact harrived
      · unfold Busy
        rw [rank_setPhase]
        exact hbusy

theorem Inv.consumed_ge (h : Inv c sp init s) (hnot : ∀ r < c.nRanks, ¬ Waiting (s.rank r))
    (hall : ∀ r < c.nRanks, s.delivered r = (s.issued r).length)
    (hquiet : ∀ r < c.nRanks, s.consumed r = s.delivered (c.left r) ∧ (s.rank r).putQ = [])
    (j : ℕ) (hj : j ≤ c.nRanks - 1) : ∀ r < c.nRanks, j * sp.stepsPerBlock ≤ s.consumed r := by
  have hn := c.nRanks_ge
  induction j with
  | zero =>
    intro r _
    rw [Nat.zero_mul]
    exact Nat.zero_le _
  | succ j ih =>
    intro r hr
    have hleft := Config.left_lt (c := c) r
    have hprev := ih (by omega) (c.left r) hleft
    have hqueue : s.issued (c.left r) ++ (s.rank (c.left r)).putQ =
        (List.range (c.queued sp (s.consumed (c.left r)))).map (c.put sp (c.left r)) :=
      (h _ hleft).queue (hnot _ hleft)
    have hlen := congrArg List.length hqueue
    rw [(hquiet _ hleft).2, List.append_nil, List.length_map, List.length_range, ← hall _ hleft,
      ← (hquiet r hr).1, Config.queued] at hlen
    have hle : j * sp.stepsPerBlock ≤ (c.nRanks - 2) * sp.stepsPerBlock :=
      Nat.mul_le_mul_right _ (by omega)
    rw [Nat.succ_mul]
    omega

theorem Inv.progresses_of_unfinished (h : Inv c sp init s)
    (hown : ∀ r, ∃ q, c.ownElems sp r = .ok q) (hunfinished : ¬ AllFinished c s) :
    Progresses c sp s := by
  by_contra hstuck
  have hall : ∀ r < c.nRanks, s.delivered r = (s.issued r).length := by
    intro r hr
    have hsent : s.delivered r ≤ (s.issued r).length := (h r hr).sent
    by_contra hne
    apply hstuck
    exact .of_moves (.deliver hr (List.getElem?_eq_getElem (by omega)))
  have hinit : ∀ r < c.nRanks, (s.rank r).phase ≠ .init :=
    fun r hr hphase => hstuck (.of_moves (.isendCtrl hr hphase))
  have hnot : ∀ r < c.nRanks, ¬ Waiting (s.rank r) := by
    rintro r hr (hphase | hphase)
    · exact hinit r hr hphase
    · obtain ⟨q, hq⟩ := hown r
      exact hstuck (.of_moves (.recvCtrl hr hphase (hinit _ (Config.right_lt r)) hq))
  have hquiet : ∀ r < c.nRanks, ¬ Busy c s r := by
    intro r hr hbusy
    by_cases hfinish : (s.rank r).phase = .finish
    · have hfinished := h.finished hr hfinish
      have hleft := (h _ (Config.left_lt r)).length_le
      have harrived : s.delivered (c.left r) ≤ (s.issued (c.left r)).length :=
        (h _ (Config.left_lt r)).sent
      have hlength : (s.issued (c.left r)).length ≤ c.total sp := hleft
      obtain ⟨hputQ, hreq, _⟩ := (h r hr).finished hfinish
      rcases hbusy with hlt | hne | hne
      · omega
      · exact hne hreq
      · exact hne hputQ
    · exact hstuck (h.progresses hr (hnot r hr) hfinish (hall r hr) (.inl hbusy))
  have hidle : ∀ r < c.nRanks, s.consumed r = s.delivered (c.left r) ∧ (s.rank r).putQ = [] := by
    intro r hr
    have harrived : s.consumed r ≤ s.delivered (c.left r) := (h r hr).arrived
    have hbusy := hquiet r hr
    unfold Busy at hbusy
    rw [not_or, not_or, not_not, not_not] at hbusy
    exact ⟨by omega, hbusy.2.2⟩
  have hge := h.consumed_ge hnot hall hidle (c.nRanks - 1) (Nat.le_refl _)
  apply hunfinished
  intro r hr
  by_contra hfinish
  apply hstuck
  apply h.progresses hr (hnot r hr) hfinish (hall r hr)
  right
  have hcounter : s.consumed r =
      (s.rank r).blockNum * sp.stepsPerBlock + (s.rank r).stepInBlock := (h r hr).counter
  have hi : (s.rank r).stepInBlock < sp.stepsPerBlock := (h r hr).inBlock
  have hblock : c.nRanks - 1 ≤ (s.rank r).blockNum := by
    have hlt : (c.nRanks - 1) * sp.stepsPerBlock < ((s.rank r).blockNum + 1) * sp.stepsPerBlock := by
      have := hge r hr
      rw [Nat.succ_mul]
      omega
    have := Nat.lt_of_mul_lt_mul_right hlt
    omega
  have hbusy := hquiet r hr
  unfold Busy at hbusy
  unfold Config.head
  rw [if_neg]
  rintro (hq | hreq | hlt)
  · exact hbusy (.inr (.inr hq))
  · exact hbusy (.inr (.inl hreq))
  · omega

end Ring

/-! ### Delivery -/

/-- The split goes through and cuts a block exactly; and in every run what is forwarded was
notified, the ranks never get stuck, and when they have all left the loop, the puts and the
notifications balance and all ranks have all blocks. -/
def Config.Delivers (c : Config) : Prop :=
  ∃ sp, c.split = .ok sp ∧ 1 ≤ sp.stepsPerBlock ∧ (∀ r, ∃ q, c.ownElems sp r = .ok q) ∧
    Partitions c sp ∧
    ∀ (β : Type) (recvbuff : ℕ → ℕ → β) (s : Ring β), Ring.Reachable c sp recvbuff s →
      Ring.ForwardsNotified c sp s ∧
      (¬ Ring.AllFinished c s → Ring.Progresses c sp s) ∧
      (Ring.AllFinished c s → Ring.Balanced c sp s ∧ Ring.Gathered c recvbuff s)

theorem delivers_iff (c : Config) : c.Delivers ↔ c.Splits := by
  rw [← splits_iff]
  constructor
  · rintro ⟨sp, hsplit, _, hown, _⟩
    obtain ⟨q, hq⟩ := hown 0
    use sp, hsplit
    by_contra hge
    rw [Config.ownElems, if_neg hge] at hq
    cases hq
  · rintro ⟨sp, hsplit, hlt⟩
    have hgood := good_of_split hsplit
    have hown : ∀ r, ∃ q, c.ownElems sp r = .ok q := fun r => ⟨_, if_pos hlt⟩
    refine ⟨sp, hsplit, hgood.steps_pos, hown, hgood.partitions, fun β recvbuff s hs => ?_⟩
    have hinv := hs.inv hgood.steps_pos
    constructor
    · exact hinv.forwardsNotified
    · constructor
      · exact hinv.progresses_of_unfinished hown
      · exact fun hall => ⟨hinv.balanced hall, hinv.gathered hgood hall⟩

/-- Two ranks with blocks of 8 bytes, which are to be split into 16. -/
def oversplit : Config where
  nRanks := 2
  nRanks_ge := by decide
  sendSize := 8
  sendSize_pos := by decide
  recvbuff_fits := by decide
  MIN_SPLIT_SIZE := 0
  NUM_SPLIT := 16
  NUM_SPLIT_int := by decide

/-- The steps are of no bytes, and their number is the block divided by zero. -/
theorem not_delivers_oversplit : oversplit.split = .error .divByZero ∧ ¬ oversplit.Delivers := by
  have hsplit : oversplit.split = .error .divByZero := by decide
  constructor
  · exact hsplit
  · rintro ⟨sp, h, _⟩
    rw [hsplit] at h
    cases h

end TorchComms.Algos.AllGatherRing
