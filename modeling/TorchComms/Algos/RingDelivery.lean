import TorchComms.Algos.AllGatherRing

/-! # What goes round the ring

The puts of a rank are numbered: first the steps of its own block, then the steps of the blocks
before it, each number standing for the same step on both sides of a link. The running step counter
of a rank is the number of the next notification.
-/
namespace TorchComms.Algos.AllGatherRing

variable {c : Config} {sp : Split}

namespace Config

/-- What the k-th put of a rank carries. -/
def put (c : Config) (sp : Split) (r k : ℕ) : PutQElem :=
  c.elem sp ((r + c.nRanks - k / sp.stepsPerBlock) % c.nRanks) (k % sp.stepsPerBlock)

/-- The puts that a rank has queued when it has taken `m` notifications. -/
def queued (c : Config) (sp : Split) (m : ℕ) : ℕ :=
  sp.stepsPerBlock + min m ((c.nRanks - 2) * sp.stepsPerBlock)

/-- The puts of a rank in all: every block but the one of the right neighbour. -/
def total (c : Config) (sp : Split) : ℕ := (c.nRanks - 1) * sp.stepsPerBlock

theorem left_lt (r : ℕ) : c.left r < c.nRanks := Nat.mod_lt _ (by have := c.nRanks_ge; omega)

theorem right_lt (r : ℕ) : c.right r < c.nRanks := Nat.mod_lt _ (by have := c.nRanks_ge; omega)

theorem left_eq {r : ℕ} (hr : r < c.nRanks) : c.left r = if r = 0 then c.nRanks - 1 else r - 1 := by
  have hn := c.nRanks_ge
  unfold left
  split
  · subst r
    rw [Nat.zero_add, Nat.mod_eq_of_lt (by omega)]
  · rw [Nat.mod_eq_sub_mod (by omega), Nat.mod_eq_of_lt (by omega)]
    omega

theorem right_eq {r : ℕ} (hr : r < c.nRanks) :
    c.right r = if r = c.nRanks - 1 then 0 else r + 1 := by
  have hn := c.nRanks_ge
  unfold right
  split
  · subst r
    rw [Nat.sub_add_cancel (by omega), Nat.mod_self]
  · rw [Nat.mod_eq_of_lt (by omega)]

theorem right_left {r : ℕ} (hr : r < c.nRanks) : c.right (c.left r) = r := by
  have hn := c.nRanks_ge
  rw [right_eq (left_lt r), left_eq hr]
  split <;> split <;> omega

theorem left_right {r : ℕ} (hr : r < c.nRanks) : c.left (c.right r) = r := by
  have hn := c.nRanks_ge
  rw [left_eq (right_lt r), right_eq hr]
  split <;> split <;> omega

theorem behind_left {r d : ℕ} (hr : r < c.nRanks) (hd : d + 1 ≤ c.nRanks) :
    (c.left r + c.nRanks - d) % c.nRanks = (r + c.nRanks - (d + 1)) % c.nRanks := by
  have hn := c.nRanks_ge
  rw [left_eq hr]
  split
  · subst r
    have heq : c.nRanks - 1 + c.nRanks - d = 0 + c.nRanks - (d + 1) + c.nRanks := by omega
    rw [heq, Nat.add_mod_right]
  · congr 1
    omega

theorem put_add {r k : ℕ} (hpos : 1 ≤ sp.stepsPerBlock) (hr : r < c.nRanks)
    (hk : k < c.total sp) : c.put sp r (k + sp.stepsPerBlock) = c.put sp (c.left r) k := by
  have hd : k / sp.stepsPerBlock + 1 ≤ c.nRanks := by
    have := (Nat.div_lt_iff_lt_mul hpos).mpr hk
    omega
  unfold put
  rw [Nat.add_div_right k hpos, Nat.add_mod_right, behind_left hr hd]

theorem put_own {r k : ℕ} (hr : r < c.nRanks) (hk : k < sp.stepsPerBlock) :
    c.put sp r k = c.elem sp r k := by
  unfold put
  rw [Nat.div_eq_of_lt hk, Nat.mod_eq_of_lt hk, Nat.sub_zero, Nat.add_mod_right,
    Nat.mod_eq_of_lt hr]

end Config

/-- The byte at an offset belongs to a step. -/
def PutQElem.Covers (e : PutQElem) (x : ℕ) : Prop := e.offset ≤ x ∧ x < e.offset + e.size

theorem div_of_covers {b i x : ℕ} (h : (c.elem sp b i).Covers x) : x / c.sendSize = b := by
  obtain ⟨hle, hlt⟩ := h
  unfold Config.elem at hle hlt
  simp only at hle hlt
  have hpos := c.sendSize_pos
  apply Nat.div_eq_of_lt_le
  · omega
  · rw [Nat.succ_mul]
    omega

namespace Ring

variable {β : Type} {init : ℕ → ℕ → β} {s : Ring β} {r : ℕ}

/-- What a byte of the receive buffers is in the end: what its owner had there. -/
def final (c : Config) (init : ℕ → ℕ → β) (x : ℕ) : β := init (x / c.sendSize) x

/-- A rank with the links to both of its neighbours. -/
structure View (β : Type) where
  rank : Rank
  issued : List PutQElem
  delivered : ℕ
  arrived : ℕ
  consumed : ℕ
  recvbuff : ℕ → β

def view (c : Config) (s : Ring β) (r : ℕ) : View β where
  rank := s.rank r
  issued := s.issued r
  delivered := s.delivered r
  arrived := s.delivered (c.left r)
  consumed := s.consumed r
  recvbuff := s.recvbuff r

/-- Before the handle of the right neighbour is there. -/
def Waiting (x : Rank) : Prop := x.phase = .init ∨ x.phase = .waitCtrl

/-- What holds of a rank in every state. -/
structure RankInv (c : Config) (sp : Split) (init : ℕ → ℕ → β) (r : ℕ) (v : View β) : Prop where
  counter : v.consumed = v.rank.blockNum * sp.stepsPerBlock + v.rank.stepInBlock
  inBlock : v.rank.stepInBlock < sp.stepsPerBlock
  arrived : v.consumed ≤ v.arrived
  sent : v.delivered ≤ v.issued.length
  requests : v.rank.iputReqs ≤ v.issued.length
  waiting : Waiting v.rank → v.issued = [] ∧ v.rank.putQ = [] ∧ v.consumed = 0
  queue : ¬ Waiting v.rank →
    v.issued ++ v.rank.putQ = (List.range (c.queued sp v.consumed)).map (c.put sp r)
  finished : v.rank.phase = .finish →
    v.rank.putQ = [] ∧ v.rank.iputReqs = 0 ∧ c.nRanks - 1 ≤ v.rank.blockNum
  own : ∀ x, x / c.sendSize = r → v.recvbuff x = final c init x
  held : ∀ k < v.arrived, ∀ x, (c.put sp (c.left r) k).Covers x → v.recvbuff x = final c init x

def Inv (c : Config) (sp : Split) (init : ℕ → ℕ → β) (s : Ring β) : Prop :=
  ∀ r < c.nRanks, RankInv c sp init r (s.view c r)

variable {v : View β} {e : PutQElem} {s' : Ring β} {b i : ℕ} {k : ℕ}

theorem RankInv.issued_eq (h : RankInv c sp init r v)
    (he : v.issued[k]? = some e) : e = c.put sp r k ∧ k < c.queued sp v.consumed := by
  have hlt : k < v.issued.length := (List.getElem?_eq_some_iff.mp he).1
  have hnot : ¬ Waiting v.rank := by
    intro hw
    rw [(h.waiting hw).1] at hlt
    exact absurd hlt (Nat.not_lt_zero k)
  have hget : (v.issued ++ v.rank.putQ)[k]? = some e := by
    rw [List.getElem?_append_left hlt, he]
  rw [h.queue hnot, List.getElem?_map, Option.map_eq_some_iff] at hget
  obtain ⟨j, hj, rfl⟩ := hget
  obtain ⟨hk, rfl⟩ := List.getElem?_eq_some_iff.mp hj
  rw [List.length_range] at hk
  rw [List.getElem_range]
  exact ⟨rfl, hk⟩

theorem RankInv.holds (h : RankInv c sp init r v) (hr : r < c.nRanks)
    (hk : k < c.queued sp v.consumed) {x : ℕ} (hx : (c.put sp r k).Covers x) :
    v.recvbuff x = final c init x := by
  have hpos : 1 ≤ sp.stepsPerBlock := by
    have := h.inBlock
    omega
  rcases Nat.lt_or_ge k sp.stepsPerBlock with hown | hge
  · rw [Config.put_own hr hown] at hx
    exact h.own x (div_of_covers hx)
  · obtain ⟨j, rfl⟩ := Nat.exists_eq_add_of_le' hge
    unfold Config.queued at hk
    have hj : j < v.consumed := by omega
    have htotal : j < c.total sp := by
      have hle : (c.nRanks - 2) * sp.stepsPerBlock ≤ c.total sp :=
        Nat.mul_le_mul_right _ (by omega)
      omega
    rw [Config.put_add hpos hr htotal] at hx
    exact h.held j (hj.trans_le h.arrived) x hx

theorem queued_le (m : ℕ) : c.queued sp m ≤ c.total sp := by
  have hn := c.nRanks_ge
  have heq : c.total sp = (c.nRanks - 2) * sp.stepsPerBlock + sp.stepsPerBlock := by
    rw [← Nat.succ_mul, Config.total]
    congr 1
    omega
  unfold Config.queued
  omega

theorem RankInv.length_le (h : RankInv c sp init r v) : v.issued.length ≤ c.total sp := by
  by_cases hw : Waiting v.rank
  · rw [(h.waiting hw).1]
    exact Nat.zero_le _
  · have hlen := congrArg List.length (h.queue hw)
    rw [List.length_append, List.length_map, List.length_range] at hlen
    have hle : c.queued sp v.consumed ≤ c.total sp := queued_le _
    omega

/-! ### The steps of a rank -/

variable {x : Rank}

theorem head_finish (h : c.head x = .finish) :
    x.putQ = [] ∧ x.iputReqs = 0 ∧ c.nRanks - 1 ≤ x.blockNum := by
  unfold Config.head at h
  split at h
  · cases h
  · rename_i hnot
    rw [not_or, not_or, not_not, not_not, Nat.not_lt] at hnot
    exact hnot

theorem not_waiting_head (x y : Rank) : ¬ Waiting { y with phase := c.head x } := by
  unfold Waiting Config.head
  split <;> rintro (h | h) <;> cases h

section

variable (h : RankInv c sp init r v)
include h

theorem RankInv.setPhase (hnot : ¬ Waiting v.rank) {phase : Phase}
    (hphase : ¬ Waiting { v.rank with phase := phase })
    (hfinish : phase = .finish →
      v.rank.putQ = [] ∧ v.rank.iputReqs = 0 ∧ c.nRanks - 1 ≤ v.rank.blockNum) :
    RankInv c sp init r { v with rank := { v.rank with phase := phase } } where
  __ := h
  waiting hw := absurd hw hphase
  queue _ := h.queue hnot
  finished := hfinish

theorem RankInv.isendCtrl (hinit : v.rank.phase = .init) :
    RankInv c sp init r { v with rank := { v.rank with phase := .waitCtrl } } where
  __ := h
  waiting _ := h.waiting (.inl hinit)
  queue hw := absurd (.inr rfl) hw
  finished := nofun

theorem RankInv.recvCtrl (hr : r < c.nRanks)
    (hwait : v.rank.phase = .waitCtrl) {q : List PutQElem} (hq : c.ownElems sp r = .ok q) :
    RankInv c sp init r
      { v with rank := { v.rank with putQ := q, phase := c.head { v.rank with putQ := q } } } where
  __ := h
  waiting hw := absurd hw (not_waiting_head _ { v.rank with putQ := q })
  queue _ := by
    obtain ⟨hissued, _, hconsumed⟩ := h.waiting (.inr hwait)
    have hown : q = (List.range sp.stepsPerBlock).map (c.put sp r) := by
      unfold Config.ownElems at hq
      split at hq
      · cases hq
        apply List.map_congr_left
        intro k hk
        exact (Config.put_own hr (List.mem_range.mp hk)).symm
      · cases hq
    simp only [hissued, hconsumed, List.nil_append, Config.queued, Nat.zero_min, Nat.add_zero]
    exact hown
  finished hf := head_finish hf

theorem RankInv.completed (hphase : v.rank.phase = .test) :
    RankInv c sp init r
      { v with rank := { v.rank with iputReqs := v.rank.iputReqs - 1 } } where
  __ := h
  requests := (Nat.sub_le _ _).trans h.requests
  finished hf := by
    rw [hphase] at hf
    cases hf

theorem RankInv.iput (hphase : v.rank.phase = .issue)
    {rest : List PutQElem} (hq : v.rank.putQ = e :: rest) :
    RankInv c sp init r { v with
      rank := { v.rank with putQ := rest, iputReqs := v.rank.iputReqs + 1 }
      issued := v.issued ++ [e] } where
  __ := h
  sent := by
    rw [List.length_append, List.length_singleton]
    exact Nat.le_succ_of_le h.sent
  requests := by
    rw [List.length_append, List.length_singleton]
    exact Nat.succ_le_succ h.requests
  waiting hw := by
    rcases hw with hw | hw <;> simp only [hphase] at hw <;> cases hw
  queue hw := by
    simp only [List.append_assoc, List.singleton_append, ← hq]
    exact h.queue hw
  finished hf := by
    simp only [hphase] at hf
    cases hf

end

theorem counter_succ (hi : i < sp.stepsPerBlock) :
    (if i = sp.stepsPerBlock - 1 then b + 1 else b) * sp.stepsPerBlock +
      (i + 1) % sp.stepsPerBlock = b * sp.stepsPerBlock + i + 1 := by
  split
  · subst i
    rw [Nat.sub_add_cancel (by omega), Nat.mod_self, Nat.succ_mul]
    omega
  · rw [Nat.mod_eq_of_lt (by omega)]
    omega

theorem div_counter (hi : i < sp.stepsPerBlock) :
    (b * sp.stepsPerBlock + i) / sp.stepsPerBlock = b ∧
      (b * sp.stepsPerBlock + i) % sp.stepsPerBlock = i := by
  constructor
  · rw [Nat.mul_comm, Nat.mul_add_div (by omega), Nat.div_eq_of_lt hi, Nat.add_zero]
  · rw [Nat.mul_comm, Nat.mul_add_mod, Nat.mod_eq_of_lt hi]

section

variable (h : RankInv c sp init r v)
include h

theorem RankInv.notified (hphase : v.rank.phase = .check) (harrived : v.consumed < v.arrived) :
    RankInv c sp init r { v with
      rank := c.onNotify sp r v.rank
      consumed := v.consumed + 1 } where
  counter := by
    simp only [Config.onNotify]
    rw [counter_succ h.inBlock, h.counter]
  inBlock := by
    simp only [Config.onNotify]
    exact Nat.mod_lt _ (by have := h.inBlock; omega)
  arrived := harrived
  __ := h
  waiting hw := by
    rcases hw with hw | hw <;> simp only [Config.onNotify, hphase] at hw <;> cases hw
  queue _ := by
    have hnot : ¬ Waiting v.rank := by
      rintro (hw | hw) <;> rw [hphase] at hw <;> cases hw
    obtain ⟨hdiv, hmod⟩ := div_counter (b := v.rank.blockNum) h.inBlock
    rw [← h.counter] at hdiv hmod
    have hi := h.inBlock
    by_cases hlast : v.rank.blockNum < c.nRanks - 2
    · have hlt : v.consumed < (c.nRanks - 2) * sp.stepsPerBlock := by
        rw [← Nat.div_lt_iff_lt_mul (by omega), hdiv]
        exact hlast
      have hqueued : c.queued sp (v.consumed + 1) = c.queued sp v.consumed + 1 := by
        unfold Config.queued
        omega
      have hnum : c.queued sp v.consumed = v.consumed + sp.stepsPerBlock := by
        unfold Config.queued
        omega
      simp only [Config.onNotify, hlast, if_true]
      rw [hqueued, List.range_succ, List.map_append, ← h.queue hnot, ← List.append_assoc,
        List.map_singleton, hnum, Config.put, Nat.add_div_right _ (by omega), Nat.add_mod_right,
        hdiv, hmod]
    · have hge : (c.nRanks - 2) * sp.stepsPerBlock ≤ v.consumed := by
        rw [← Nat.le_div_iff_mul_le (by omega), hdiv]
        omega
      have hqueued : c.queued sp (v.consumed + 1) = c.queued sp v.consumed := by
        unfold Config.queued
        omega
      simp only [Config.onNotify, hlast, if_false]
      rw [hqueued]
      exact h.queue hnot
  finished hf := by
    simp only [Config.onNotify, hphase] at hf
    cases hf

/-! ### Deliveries -/

theorem RankInv.sentOne (hlt : v.delivered < v.issued.length) :
    RankInv c sp init r { v with delivered := v.delivered + 1 } where
  __ := h
  sent := hlt

theorem RankInv.arrivedOne {src : ℕ → β}
    (he : e = c.put sp (c.left r) v.arrived) (hsrc : ∀ x, e.Covers x → src x = final c init x) :
    RankInv c sp init r { v with
      arrived := v.arrived + 1
      recvbuff := fun x =>
        if e.offset ≤ x ∧ x < e.offset + e.size then src x else v.recvbuff x } where
  __ := h
  arrived := Nat.le_succ_of_le h.arrived
  own x hx := by
    simp only
    split
    · exact hsrc x ‹_›
    · exact h.own x hx
  held k hk x hx := by
    simp only
    split
    · exact hsrc x ‹_›
    · rename_i hnot
      rcases Nat.lt_succ_iff_lt_or_eq.mp hk with hk | rfl
      · exact h.held k hk x hx
      · rw [← he] at hx
        exact absurd hx hnot

end

/-! ### The run -/

theorem view_setRank (s : Ring β) (r : ℕ) (x : Rank) (p : ℕ) :
    (s.setRank r x).view c p = if p = r then { s.view c p with rank := x } else s.view c p := by
  unfold view setRank
  split
  · subst p
    simp only [Function.update_self]
  · rename_i hne
    simp only [Function.update_of_ne hne]

theorem Inv.setRank (h : Inv c sp init s)
    (hx : r < c.nRanks → RankInv c sp init r { s.view c r with rank := x }) :
    Inv c sp init (s.setRank r x) := by
  intro p hp
  rw [view_setRank]
  split
  · subst p
    exact hx hp
  · exact h p hp

theorem Inv.deliver (h : Inv c sp init s) (hr : r < c.nRanks)
    (he : (s.issued r)[s.delivered r]? = some e) : Inv c sp init (s.deliver c r e) := by
  have hsender := h r hr
  obtain ⟨heq, hqueued⟩ := hsender.issued_eq he
  have hlt : s.delivered r < (s.issued r).length := (List.getElem?_eq_some_iff.mp he).1
  have hholds : ∀ x, e.Covers x → s.recvbuff r x = final c init x := by
    intro x hx
    rw [heq] at hx
    exact hsender.holds hr hqueued hx
  intro p hp
  have hinv := h p hp
  by_cases hright : p = c.right r
  · have hleft : c.left p = r := by rw [hright, Config.left_right hr]
    have hne : p ≠ r := by
      intro hpr
      have := Config.right_eq hr
      have hn := c.nRanks_ge
      split at this <;> omega
    have hview : (s.deliver c r e).view c p = { s.view c p with
        arrived := (s.view c p).arrived + 1
        recvbuff := fun x => if e.offset ≤ x ∧ x < e.offset + e.size then s.recvbuff r x
          else (s.view c p).recvbuff x } := by
      unfold view Ring.deliver
      simp only [hleft, Function.update_self, Function.update_of_ne hne, ← hright]
    rw [hview]
    apply hinv.arrivedOne _ hholds
    unfold view
    rw [heq, hleft]
  · have hleft : c.left p ≠ r := by
      intro hleft
      rw [← hleft, Config.right_left hp] at hright
      exact hright rfl
    by_cases hpr : p = r
    · subst hpr
      have hview : (s.deliver c p e).view c p =
          { s.view c p with delivered := (s.view c p).delivered + 1 } := by
        unfold view Ring.deliver
        simp only [Function.update_self, Function.update_of_ne hleft, Function.update_of_ne hright]
      rw [hview]
      exact hinv.sentOne hlt
    · have hview : (s.deliver c r e).view c p = s.view c p := by
        unfold view Ring.deliver
        simp only [Function.update_of_ne hpr, Function.update_of_ne hleft,
          Function.update_of_ne hright]
      rw [hview]
      exact hinv

theorem not_waiting_of_phase {phase : Phase} (h : x.phase = phase)
    (hinit : phase ≠ .init) (hwait : phase ≠ .waitCtrl) : ¬ Waiting x := by
  rintro (hw | hw)
  · exact hinit (h.symm.trans hw)
  · exact hwait (h.symm.trans hw)

theorem Inv.moves (h : Inv c sp init s) (hstep : Moves c sp s s') : Inv c sp init s' := by
  cases hstep with
  | @isendCtrl r hr hphase => exact h.setRank fun _ => (h r hr).isendCtrl hphase
  | @recvCtrl r q hr hphase _ hq => exact h.setRank fun _ => (h r hr).recvCtrl hr hphase hq
  | @notified r hr hphase harrived =>
    intro p hp
    by_cases hpr : p = r
    · subst hpr
      have hnew := (h p hp).notified hphase harrived
      unfold view at hnew ⊢
      simpa only [Ring.setRank, Function.update_self] using hnew
    · have hinv := h p hp
      unfold view at hinv ⊢
      simpa only [Ring.setRank, Function.update_of_ne hpr] using hinv
  | @completed r hr hphase _ _ => exact h.setRank fun _ => (h r hr).completed hphase
  | @iput r e rest hr hphase hq =>
    intro p hp
    by_cases hpr : p = r
    · subst hpr
      have hnew := (h p hp).iput hphase hq
      unfold view at hnew ⊢
      simpa only [Ring.setRank, Function.update_self] using hnew
    · have hinv := h p hp
      unfold view at hinv ⊢
      simpa only [Ring.setRank, Function.update_of_ne hpr] using hinv
  | @exit r hr hphase _ hhead =>
    apply h.setRank
    intro _
    apply (h r hr).setPhase (not_waiting_of_phase hphase nofun nofun)
    · exact not_waiting_of_phase rfl nofun nofun
    · exact fun _ => head_finish hhead
  | deliver hr he => exact h.deliver hr he

theorem Inv.polls (h : Inv c sp init s) (hstep : Polls c s s') : Inv c sp init s' := by
  cases hstep with
  | @quiet r hr hphase _ =>
    apply h.setRank
    intro _
    apply (h r hr).setPhase (not_waiting_of_phase hphase nofun nofun)
    · exact not_waiting_of_phase rfl nofun nofun
    · exact nofun
  | @pending r hr hphase =>
    apply h.setRank
    intro _
    apply (h r hr).setPhase (not_waiting_of_phase hphase nofun nofun)
    · exact not_waiting_of_phase rfl nofun nofun
    · exact nofun
  | @again r hr hphase _ _ =>
    apply h.setRank
    intro _
    apply (h r hr).setPhase (not_waiting_of_phase hphase nofun nofun)
    · exact not_waiting_of_phase rfl nofun nofun
    · exact nofun

theorem inv_initial (hpos : 1 ≤ sp.stepsPerBlock) (recvbuff : ℕ → ℕ → β) :
    Inv c sp recvbuff (initial recvbuff) := by
  intro r _
  constructor
  · exact (Nat.zero_mul _).symm
  · exact hpos
  · exact Nat.le_refl _
  · exact Nat.le_refl _
  · exact Nat.le_refl _
  · exact fun _ => ⟨rfl, rfl, rfl⟩
  · exact fun hw => absurd (.inl rfl) hw
  · exact nofun
  · rintro x rfl
    rfl
  · exact fun k hk => absurd hk (Nat.not_lt_zero k)

theorem Reachable.inv {recvbuff : ℕ → ℕ → β} (hpos : 1 ≤ sp.stepsPerBlock)
    (h : Reachable c sp recvbuff s) : Inv c sp recvbuff s := by
  induction h with
  | refl => exact inv_initial hpos recvbuff
  | tail _ hstep ih => exact hstep.elim ih.moves ih.polls

end Ring
end TorchComms.Algos.AllGatherRing
