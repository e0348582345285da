import TorchComms.AllToAllvDedup.FwdOrder

/-! # Every chunk once, in order

A run in which no worker laps keeps the chunks in order, and where it ends the receiver has consumed
every chunk. A group that has not written its chunk yet can be lapped by another group, for the flag
of a chunk that nobody has posted looks like the flag of a chunk that is free.
-/
namespace TorchComms.AllToAllvDedup
open Function

namespace FwdState

variable {β : Type} {c : FwdConfig} {chunk : ℕ → ℕ → Cell → β} {s t : FwdState β} {g w i j : ℕ}

/-- What holds of every state that is reached without a worker that laps. -/
structure Inv (c : FwdConfig) (chunk : ℕ → ℕ → Cell → β) (s : FwdState β) : Prop where
  tickets : Tickets c s
  slots : Slots c chunk s
  consumed : Consumed c chunk s
  left : ∀ left, s.receiver = .waitPost left ∨ s.receiver = .complete left →
    left ⊆ Finset.range c.numWorkers

namespace Inv

theorem initial (tmpRecvBuff : ℕ × Cell → β) : Inv c chunk (FwdState.initial c tmpRecvBuff) := by
  constructor
  · exact Tickets.initial tmpRecvBuff
  · exact (Slots.initial tmpRecvBuff).1
  · exact (Slots.initial tmpRecvBuff).2
  · rintro left (h | h)
    · cases h
      exact Finset.Subset.refl _
    · cases h

theorem copy_of_setWorker {x : Worker} (hx : ∀ i left, x ≠ .copy i left) {p : ℕ × ℕ} {left : List Cell}
    (h : (s.setWorker g w x).worker p = .copy i left) : s.worker p = .copy i left := by
  by_cases hp : p = (g, w)
  · rw [hp, setWorker_self] at h
    exact absurd h (hx i left)
  · rwa [setWorker_of_ne hp] at h

theorem not_past_new (ht : Tickets c s) (hg : g < c.numGroups) (hnext : s.worker (g, 0) = .next)
    (hw : w < c.numWorkers) :
    ¬ FwdState.Past { s.setWorker g 0 (.hand s.remRecvSteps 1) with
      remRecvSteps := s.remRecvSteps + 1
      takenBy := update s.takenBy s.remRecvSteps (g, s.posts (g, 0)) } s.remRecvSteps w := by
  rintro (hposted | ⟨left, hleft⟩)
  · unfold Posted at hposted
    simp only [update_self] at hposted
    exact absurd hposted (Nat.not_lt.mpr (ht.posts_le_zero hg hw hnext))
  · simp only [update_self] at hleft
    have hold := copy_of_setWorker (x := .hand s.remRecvSteps 1) nofun hleft
    exact absurd (ht.held g hg w hw s.remRecvSteps (by rw [hold]; rfl)).1 (Nat.lt_irrefl _)

variable {a : Act}

theorem chunks (h : Inv c chunk s) (hturn : NotLapping c s a)
    (hstep : Step c chunk s a t) : Slots c chunk t ∧ Consumed c chunk t := by
  have hsame : ∀ j, s.remRecvSteps ≤ j → j < s.remRecvSteps → ∀ v < c.numWorkers, ¬ t.Past j v :=
    fun j hge hlt => absurd hlt (Nat.not_lt.mpr hge)
  cases hstep with
  | @atomicAdd g hg hnext hfwd =>
    refine h.slots.ticket h.consumed (Nat.le_succ _)
      (fun j hj => update_of_ne (Nat.ne_of_lt hj) ..) rfl rfl rfl rfl rfl rfl
      (fun p i left => copy_of_setWorker (x := .hand s.remRecvSteps 1) nofun) ?_
    intro j hge hlt v hv
    have hj : j = s.remRecvSteps := Nat.le_antisymm (Nat.lt_succ_iff.mp hlt) hge
    rw [hj]
    exact not_past_new h.tickets hg hnext hv
  | @atomicCAS g step w =>
    exact h.slots.ticket h.consumed (Nat.le_refl _) (fun j _ => rfl) rfl rfl rfl rfl rfl rfl
      (fun p i left => copy_of_setWorker (x := .hand step (w + 1)) nofun) hsame
  | @leaveLoop g step w =>
    exact h.slots.ticket h.consumed (Nat.le_refl _) (fun j _ => rfl) rfl rfl rfl rfl rfl rfl
      (fun p i left => copy_of_setWorker (x := .waitReady step) nofun) hsame
  | @atomicExch g w step =>
    exact h.slots.ticket h.consumed (Nat.le_refl _) (fun j _ => rfl) rfl rfl rfl rfl rfl rfl
      (fun p i left => copy_of_setWorker (x := .waitReady step) nofun) hsame
  | waitReady hg hw hwait hflag =>
    exact h.slots.waitReady h.consumed h.tickets hg hw hwait hflag fun hround =>
      hturn _ hwait hround
  | write hg hw hcopy => exact h.slots.write h.consumed h.tickets hg hw hcopy
  | post hg hw hcopy => exact h.slots.post h.consumed h.tickets hg hw hcopy
  | loadFlag hwait hw hflag =>
    exact h.slots.loadFlag h.consumed (h.left _ (.inl hwait)) hwait hw hflag
  | allPosted hwait => exact h.slots.allPosted h.consumed hwait
  | read hcopy he => exact h.slots.read h.consumed hcopy he
  | allRead hcopy => exact h.slots.allRead h.consumed hcopy
  | storeFlag hcomplete hw =>
    exact h.slots.storeFlag h.consumed (h.left _ (.inr hcomplete)) hcomplete hw
  | allUnset hcomplete => exact h.slots.allUnset h.consumed hcomplete

theorem flags_left (h : Inv c chunk s) (hstep : Step c chunk s a t) (left : Finset ℕ)
    (hr : t.receiver = .waitPost left ∨ t.receiver = .complete left) :
    left ⊆ Finset.range c.numWorkers := by
  cases hstep with
  | loadFlag hwait hw hflag =>
    rcases hr with hr | hr <;> cases hr
    exact (Finset.erase_subset _ _).trans (h.left _ (.inl hwait))
  | allPosted hwait => rcases hr with hr | hr <;> cases hr
  | read hcopy he => rcases hr with hr | hr <;> cases hr
  | allRead hcopy =>
    rcases hr with hr | hr <;> cases hr
    exact Finset.Subset.refl _
  | storeFlag hcomplete hw =>
    rcases hr with hr | hr <;> cases hr
    exact (Finset.erase_subset _ _).trans (h.left _ (.inr hcomplete))
  | allUnset hcomplete =>
    rcases hr with hr | hr <;> cases hr
    exact Finset.Subset.refl _
  | _ => exact h.left left hr

theorem step (h : Inv c chunk s) (hturn : NotLapping c s a) (hstep : Step c chunk s a t) :
    Inv c chunk t where
  tickets := h.tickets.step hstep
  slots := (h.chunks hturn hstep).1
  consumed := (h.chunks hturn hstep).2
  left := h.flags_left hstep

theorem of_reachable {tmpRecvBuff : ℕ × Cell → β} (h : ReachableInTurn c chunk tmpRecvBuff s) :
    Inv c chunk s := by
  induction h with
  | refl => exact initial tmpRecvBuff
  | tail _ hlast ih =>
    obtain ⟨a, hturn, hstep⟩ := hlast
    exact ih.step hturn hstep

/-! ### Where a run ends -/

theorem recvStep_le_of_held (h : Inv c chunk s) (hg : g < c.numGroups) (hw : w < c.numWorkers)
    (hheld : (s.worker (g, w)).held = some i) : s.recvStep ≤ i := by
  obtain ⟨_, htaken⟩ := h.tickets.held g hg w hw i hheld
  by_contra hlt
  obtain ⟨_, hposted⟩ := h.slots.seen w hw i (.inl (by omega))
  unfold Posted at hposted
  rw [htaken] at hposted
  exact Nat.lt_irrefl _ hposted

theorem recvStep_le_of_handed (h : Inv c chunk s) (hg : g < c.numGroups) (hpos : 0 < w)
    (hw : w < c.numWorkers) (hset : s.remRecvStepsInGroup (g, w) = some i) : s.recvStep ≤ i := by
  obtain ⟨_, htaken⟩ := h.tickets.handed g hg w hpos hw i hset
  by_contra hlt
  obtain ⟨_, hposted⟩ := h.slots.seen w hw i (.inl (by omega))
  unfold Posted at hposted
  rw [htaken] at hposted
  exact absurd hposted (Nat.not_lt.mpr posts_le_obtained)

section Ends

variable (h : Inv c chunk s) (hend : ∀ a t, ¬ Step c chunk s a t)
include h hend

theorem waiting : ∃ w < c.numWorkers, s.flags (c.getTmpChunkIdx s.recvStep, w) = .kUnset ∧
    ¬ s.Cleared s.recvStep w ∧ s.consumed.length = s.recvStep := by
  cases hr : s.receiver with
  | waitPost left =>
    rcases left.eq_empty_or_nonempty with rfl | ⟨w, hw⟩
    · exact absurd (.allPosted hr) (hend _ _)
    · use w, Finset.mem_range.mp (h.left _ (.inl hr) hw)
      refine ⟨?_, ?_, ?_⟩
      · cases hflag : s.flags (c.getTmpChunkIdx s.recvStep, w) with
        | kUnset => rfl
        | kPosted => exact absurd (.loadFlag hr hw hflag) (hend _ _)
      · rintro (hlt | ⟨_, hunset⟩)
        · exact Nat.lt_irrefl _ hlt
        · rw [hr] at hunset
          exact hunset
      · have hlength := h.consumed.length
        rw [hr] at hlength
        exact hlength
  | copy left got =>
    rcases left.eq_empty_or_nonempty with rfl | ⟨e, he⟩
    · exact absurd (.allRead hr) (hend _ _)
    · exact absurd (.read hr he) (hend _ _)
  | complete left =>
    rcases left.eq_empty_or_nonempty with rfl | ⟨w, hw⟩
    · exact absurd (.allUnset hr) (hend _ _)
    · exact absurd (.storeFlag hr hw) (hend _ _)

theorem not_hand (hg : g < c.numGroups) (hhand : s.worker (g, 0) = .hand s.recvStep w) : False := by
  have hw : w < c.numWorkers := by
    by_contra hge
    exact hend _ _ (.leaveLoop hg hhand (by omega))
  have hpos := (h.tickets.loop g hg 0 c.numWorkers_pos _ w hhand).2
  cases hset : s.remRecvStepsInGroup (g, w) with
  | none => exact hend _ _ (.atomicCAS hg hhand hw hset)
  | some j =>
    -- the number that is left for the other worker comes before the one of the receiver
    have hj := h.recvStep_le_of_handed hg hpos hw hset
    obtain ⟨hjlt, hjTaken⟩ := h.tickets.handed g hg w hpos hw j hset
    obtain ⟨hlt, hTaken⟩ := h.tickets.held g hg 0 c.numWorkers_pos s.recvStep (by rw [hhand]; rfl)
    have hgiven := h.tickets.given g hg w hpos hw
    unfold FwdState.given offered at hgiven
    rw [hset, if_neg nofun, hhand, Worker.offers, if_pos (Nat.le_refl _)] at hgiven
    have hbefore : j < s.recvStep := by
      apply h.tickets.lt_of_lt hlt _ _ hjlt
      · rw [hjTaken, hTaken]
      · rw [hjTaken, hTaken]
        simp only
        omega
    omega

theorem flag_of_held (hg : g < c.numGroups) (hw : w < c.numWorkers)
    (hheld : (s.worker (g, w)).held = some s.recvStep) :
    s.flags (c.getTmpChunkIdx s.recvStep, w) = .kPosted := by
  cases hwork : s.worker (g, w) with
  | next =>
    rw [hwork] at hheld
    cases hheld
  | hand step v =>
    rw [hwork] at hheld
    cases hheld
    obtain ⟨rfl, _⟩ := h.tickets.loop g hg w hw _ v hwork
    exact (h.not_hand hend hg hwork).elim
  | waitReady step =>
    rw [hwork] at hheld
    cases hheld
    cases hflag : s.flags (c.getTmpChunkIdx s.recvStep, w) with
    | kUnset => exact absurd (.waitReady hg hw hwork hflag) (hend _ _)
    | kPosted => rfl
  | copy step left =>
    exfalso
    cases left with
    | nil => exact hend _ _ (.post hg hw hwork)
    | cons e left => exact hend _ _ (.write hg hw hwork)

theorem remRecvSteps_le : s.remRecvSteps ≤ s.recvStep := by
  by_contra hlt
  have hlt : s.recvStep < s.remRecvSteps := Nat.not_le.mp hlt
  obtain ⟨w, hw, hflag, hcleared, _⟩ := h.waiting hend
  obtain ⟨hg, hfwd, hobtained⟩ := h.tickets.bound s.recvStep hlt
  generalize htaken : s.takenBy s.recvStep = p at hg hfwd hobtained
  obtain ⟨g, k⟩ := p
  simp only at hg hfwd hobtained
  have hposts : s.posts (g, w) ≤ k := by
    by_contra hposted
    have hset := h.slots.posted s.recvStep hlt w hw
      (by unfold Posted; rw [htaken]; exact Nat.not_le.mp hposted) hcleared
    rw [hflag] at hset
    cases hset
  cases hheld : (s.worker (g, w)).held with
  | some i =>
    obtain ⟨hi, hiTaken⟩ := h.tickets.held g hg w hw i hheld
    have hle := h.recvStep_le_of_held hg hw hheld
    rcases Nat.lt_or_eq_of_le hposts with hbefore | heq
    · have hlt' : i < s.recvStep := by
        apply h.tickets.lt_of_lt hlt _ _ hi
        · rw [hiTaken, htaken]
        · rw [hiTaken, htaken]
          exact hbefore
      omega
    · have hir : i = s.recvStep := h.tickets.injective hi hlt (by rw [hiTaken, htaken, heq])
      have hset := h.flag_of_held hend hg hw (hir ▸ hheld)
      rw [hflag] at hset
      cases hset
  | none =>
    have hnext : s.worker (g, w) = .next := by
      cases hwork : s.worker (g, w) with
      | next => rfl
      | _ =>
        rw [hwork] at hheld
        cases hheld
    rcases Nat.eq_zero_or_pos w with rfl | hpos
    · exact hend _ _ (.atomicAdd hg hnext (hposts.trans_lt hfwd))
    cases hset : s.remRecvStepsInGroup (g, w) with
    | some j => exact hend _ _ (.atomicExch hg hpos hw hnext (hposts.trans_lt hfwd) hset)
    | none =>
      -- worker 0 has not given the step to this worker, so it is still in its loop
      have hgiven := h.tickets.given g hg w hpos hw
      unfold FwdState.given offered obtained at hgiven
      rw [hset, if_pos rfl, hnext, Worker.holds] at hgiven
      unfold obtained at hobtained
      cases hzero : s.worker (g, 0) with
      | hand i v =>
        obtain ⟨hi, hiTaken⟩ := h.tickets.held g hg 0 c.numWorkers_pos i (by rw [hzero]; rfl)
        rw [hzero, Worker.holds] at hobtained
        · have hir : i = s.recvStep := by
            apply h.tickets.injective hi hlt
            rw [hiTaken, htaken]
            congr 1
            omega
          exact h.not_hand hend hg (hir ▸ hzero)
        · nofun
      | next =>
        rw [hzero, Worker.holds] at hobtained
        rw [hzero, Worker.offers] at hgiven
        omega
      | waitReady i =>
        rw [hzero] at hobtained hgiven
        simp only [Worker.holds, Worker.offers] at hobtained hgiven
        omega
      | copy i left =>
        rw [hzero] at hobtained hgiven
        simp only [Worker.holds, Worker.offers] at hobtained hgiven
        omega

theorem taken_of_ends (hg : g < c.numGroups) {k : ℕ} (hk : k < c.numFwds g) :
    ∃ i < s.consumed.length, s.takenBy i = (g, k) := by
  have hle := h.remRecvSteps_le hend
  have hnone : (s.worker (g, 0)).held = none := by
    rw [Option.eq_none_iff_forall_not_mem]
    intro i hi
    have hheld : (s.worker (g, 0)).held = some i := hi
    have hlt := (h.tickets.held g hg 0 c.numWorkers_pos i hheld).1
    have hge := h.recvStep_le_of_held hg c.numWorkers_pos hheld
    omega
  have hposts : c.numFwds g ≤ s.posts (g, 0) := by
    by_contra hlt
    cases hwork : s.worker (g, 0) with
    | next => exact hend _ _ (.atomicAdd hg hwork (by omega))
    | _ =>
      rw [hwork] at hnone
      cases hnone
  obtain ⟨j, hj, htaken⟩ := h.tickets.taken g hg k ((hk.trans_le hposts).trans_le posts_le_obtained)
  obtain ⟨_, _, _, _, hlength⟩ := h.waiting hend
  exact ⟨j, by omega, htaken⟩

end Ends

theorem inOrder (h : Inv c chunk s) : InOrder c chunk s where
  exclusive := fun g hg g' hg' w hw w' hw' i j =>
    h.slots.exclusive h.tickets hg hw hg' hw'
  unread := fun g hg w hw i hin j hj =>
    h.slots.unread h.tickets h.consumed hg hw hin hj
  steps := by
    constructor
    · cases hlen : s.consumed.length with
      | zero => exact Nat.zero_le _
      | succ n => exact h.slots.lt_of_consumed h.consumed (by omega)
    · exact h.consumed.content
  once := fun i hi j hj => h.tickets.injective hi hj
  all := fun hend g hg k hk => h.taken_of_ends hend hg hk

end Inv
/-- A run in which no worker laps has its chunks in order in every state. -/
theorem inOrder_of_notLapping (c : FwdConfig) (chunk : ℕ → ℕ → Cell → β)
    (tmpRecvBuff : ℕ × Cell → β) (s : FwdState β) (h : ReachableInTurn c chunk tmpRecvBuff s) :
    InOrder c chunk s :=
  (Inv.of_reachable h).inOrder

/-- Two groups of one worker and two chunks, for one chunk of group 0 and two of group 1. -/
def twoGroups : FwdConfig where
  numGroups := 2
  numWorkers := 1
  tmpNumChunks := 2
  numFwds := fun g => g + 1
  numGroups_pos := Nat.two_pos
  numWorkers_pos := Nat.one_pos
  tmpNumChunks_pow := ⟨1, rfl⟩

/-- Both groups write, each in a chunk of its own. -/
theorem inOrder_of_notLapping_twoGroups : ∃ s : FwdState ℕ,
    s.InCopy 0 0 0 ∧ s.InCopy 1 0 1 ∧ InOrder twoGroups (fun g _ _ => g) s := by
  have h0 : ReachableInTurn twoGroups (fun g _ _ => g) (fun _ => 0) _ := .refl
  have h1 := h0.tail ⟨.atomicAdd 0, trivial, .atomicAdd (by decide) rfl (by decide)⟩
  have h2 := h1.tail ⟨.leaveLoop 0, trivial, .leaveLoop (by decide) rfl (by decide)⟩
  have h3 := h2.tail ⟨.waitReady 0 0, by rintro step ⟨⟩ hround; exact absurd hround (by decide),
    .waitReady (by decide) (by decide) rfl rfl⟩
  have h4 := h3.tail ⟨.atomicAdd 1, trivial, .atomicAdd (by decide) rfl (by decide)⟩
  have h5 := h4.tail ⟨.leaveLoop 1, trivial, .leaveLoop (by decide) rfl (by decide)⟩
  have h6 := h5.tail ⟨.waitReady 1 0, by rintro step ⟨⟩ hround; exact absurd hround (by decide),
    .waitReady (by decide) (by decide) rfl rfl⟩
  exact ⟨_, ⟨_, rfl⟩, ⟨_, rfl⟩, inOrder_of_notLapping twoGroups _ _ _ h6⟩

/-- Group 1 has posted its first chunk and writes its second one where group 0 writes. -/
theorem not_inOrder_lapped : ¬ ∀ s, Reachable twoGroups (fun g _ _ => g) (fun _ => 0) s →
    InOrder twoGroups (fun g _ _ => g) s := by
  intro h
  have h0 : Reachable twoGroups (fun g _ _ => g) (fun _ => 0) _ := .refl
  have h1 := h0.tail ⟨_, .atomicAdd (g := 0) (by decide) rfl (by decide)⟩
  have h2 := h1.tail ⟨_, .leaveLoop (g := 0) (by decide) rfl (by decide)⟩
  have h3 := h2.tail ⟨_, .waitReady (g := 0) (w := 0) (by decide) (by decide) rfl rfl⟩
  have h4 := h3.tail ⟨_, .atomicAdd (g := 1) (by decide) rfl (by decide)⟩
  have h5 := h4.tail ⟨_, .leaveLoop (g := 1) (by decide) rfl (by decide)⟩
  have h6 := h5.tail ⟨_, .waitReady (g := 1) (w := 0) (by decide) (by decide) rfl rfl⟩
  have h7 := h6.tail ⟨_, .write (g := 1) (w := 0) (by decide) (by decide) rfl⟩
  have h8 := h7.tail ⟨_, .write (g := 1) (w := 0) (by decide) (by decide) rfl⟩
  have h9 := h8.tail ⟨_, .write (g := 1) (w := 0) (by decide) (by decide) rfl⟩
  have h10 := h9.tail ⟨_, .post (g := 1) (w := 0) (by decide) (by decide) rfl⟩
  have h11 := h10.tail ⟨_, .atomicAdd (g := 1) (by decide) rfl (by decide)⟩
  have h12 := h11.tail ⟨_, .leaveLoop (g := 1) (by decide) rfl (by decide)⟩
  have h13 := h12.tail ⟨_, .waitReady (g := 1) (w := 0) (by decide) (by decide) rfl rfl⟩
  exact absurd ((h _ h13).exclusive 0 (by decide) 1 (by decide) 0 (by decide) 0 (by decide) 0 2
    ⟨_, rfl⟩ ⟨_, rfl⟩ rfl) (by decide)

end FwdState
end TorchComms.AllToAllvDedup
