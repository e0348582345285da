import TorchComms.Algos.RingReduction
import TorchComms.Foundation.Run
import Mathlib.Data.Finset.Max

/-! # What the ReduceScatter ring computes

Where a block has elements, half of the temporary buffer holds one of them, and an `int` counts the
steps of all rounds, every run ends with every rank's own block reduced over all ranks. Without an
element in a block or in half of the buffer, the number of rounds is a division by zero.
-/
namespace TorchComms.Algos.ReduceScatterRing

open Foundation

variable {c : Config} {p : Plan}

/-! ### The rounds -/

/-- The chunks of the rounds lie in a block, none is empty, and each element is in one of them. -/
structure Partitions (c : Config) (p : Plan) : Prop where
  within : ∀ r < p.nRounds, 1 ≤ c.roundCount p r ∧
    r * p.stepCount + c.roundCount p r ≤ c.recvcount
  unique : ∀ e < c.recvcount, ∃! r, r < p.nRounds ∧
    r * p.stepCount ≤ e ∧ e < r * p.stepCount + c.roundCount p r

/-- A block and half of the temporary buffer have an element, and an `int` counts the steps. -/
def Config.Fits (c : Config) : Prop :=
  1 ≤ c.recvcount ∧ 1 ≤ c.half ∧
    (c.recvcount + c.half - 1) / c.half * (c.nRanks - 1) < 2 ^ 31

theorem toInt_eq {x : ℕ} (h : x < 2 ^ 31) : toInt x = x := by
  unfold toInt
  rw [Int.bmod_def]
  split <;> omega

theorem toInt_le {x : ℕ} (h : 2 ^ 31 ≤ x) : toInt x ≤ x - 2 ^ 32 := by
  unfold toInt
  rw [Int.bmod_def]
  split <;> omega

theorem Good.partitions (h : Good c p) : Partitions c p := by
  have hpos := h.step_pos
  have hround : ∀ r < p.nRounds, r * p.stepCount < c.recvcount := by
    intro r hr
    have hle : r * p.stepCount ≤ (p.nRounds - 1) * p.stepCount :=
      Nat.mul_le_mul_right _ (by omega)
    exact hle.trans_lt h.last_lt
  constructor
  · intro r hr
    have := hround r hr
    unfold Config.roundCount
    omega
  · intro e he
    use e / p.stepCount
    have hdiv := Nat.div_add_mod e p.stepCount
    have hmod := Nat.mod_lt e hpos
    rw [Nat.mul_comm] at hdiv
    constructor
    · simp only [Config.roundCount]
      refine ⟨?_, by omega, by omega⟩
      exact (Nat.div_lt_iff_lt_mul hpos).mpr (he.trans_le h.le_last)
    · rintro r ⟨_, hle, hlt⟩
      unfold Config.roundCount at hlt
      apply Eq.symm
      apply Nat.div_eq_of_lt_le
      · omega
      · rw [Nat.succ_mul]
        omega

theorem ceil_eq {x d : ℕ} (hd : 1 ≤ d) :
    (x + d - 1) / d = if x % d = 0 then x / d else x / d + 1 := by
  have hdiv := Nat.div_add_mod x d
  have hmod := Nat.mod_lt x hd
  rw [Nat.mul_comm] at hdiv
  split
  · apply Nat.div_eq_of_lt_le
    · omega
    · rw [Nat.succ_mul]
      omega
  · apply Nat.div_eq_of_lt_le
    · rw [Nat.succ_mul]
      omega
    · rw [Nat.succ_mul, Nat.succ_mul]
      omega

theorem ceil_min (hcount : 1 ≤ c.recvcount) :
    (c.recvcount + c.half - 1) / c.half =
      (c.recvcount + min c.half c.recvcount - 1) / min c.half c.recvcount := by
  rcases Nat.le_total c.half c.recvcount with hle | hle
  · rw [Nat.min_eq_left hle]
  · rw [Nat.min_eq_right hle]
    have hone : (c.recvcount + c.half - 1) / c.half = 1 := by
      apply Nat.div_eq_of_lt_le <;> omega
    have hself : (c.recvcount + c.recvcount - 1) / c.recvcount = 1 := by
      apply Nat.div_eq_of_lt_le <;> omega
    rw [hone, hself]

/-- What a ring configuration is made of, when nothing overflows. -/
theorem getRingConfig_cases {config : RingConfig} (h : c.getRingConfig = .ok config) :
    1 ≤ config.stepCount ∧ config.stepCount = min c.half c.recvcount ∧
      config.nSteps = c.nRanks - 1 ∧
      (c.recvcount % config.stepCount = 0 ∧
          config.nRounds = toInt (c.recvcount / config.stepCount) ∨
        c.recvcount % config.stepCount ≠ 0 ∧
          toInt (c.recvcount / config.stepCount) ≠ 2 ^ 31 - 1 ∧
          config.nRounds = toInt (c.recvcount / config.stepCount) + 1) := by
  unfold Config.getRingConfig at h
  simp only [bind, Except.bind, pure, Except.pure] at h
  split at h
  · cases h
  · rename_i hstep
    split at h
    · rename_i hmod
      cases h
      exact ⟨Nat.pos_of_ne_zero hstep, rfl, rfl, .inl ⟨hmod, by simp only⟩⟩
    · rename_i hmod
      split at h
      · cases h
      · rename_i hmax
        cases h
        exact ⟨Nat.pos_of_ne_zero hstep, rfl, rfl, .inr ⟨hmod, hmax, by simp only⟩⟩

theorem getRingConfig_of_fits (h : c.Fits) : c.getRingConfig =
    .ok ⟨min c.half c.recvcount, ((c.recvcount + c.half - 1) / c.half : ℕ), c.nRanks - 1⟩ := by
  obtain ⟨hcount, hhalf, hsteps⟩ := h
  have hn := c.nRanks_ge
  have hpos : 1 ≤ min c.half c.recvcount := by omega
  have hrounds : (c.recvcount + c.half - 1) / c.half < 2 ^ 31 :=
    (Nat.le_mul_of_pos_right _ (by omega)).trans_lt hsteps
  rw [ceil_min hcount, ceil_eq hpos] at hrounds ⊢
  unfold Config.getRingConfig
  simp only [bind, Except.bind, pure, Except.pure]
  rw [if_neg (by omega)]
  split
  · rw [if_pos ‹_›] at hrounds
    rw [toInt_eq hrounds]
  · rw [if_neg ‹_›] at hrounds
    rw [toInt_eq (by omega), if_neg (by omega)]
    rfl

theorem plan_of_fits (h : c.Fits) : ∃ p, c.setupPlan = .ok p ∧ Good c p := by
  have hconfig := getRingConfig_of_fits h
  obtain ⟨hcount, hhalf, hsteps⟩ := h
  have hn := c.nRanks_ge
  have hcast : ((c.recvcount + c.half - 1) / c.half : ℕ) * ((c.nRanks : ℤ) - 1) =
      ((c.recvcount + c.half - 1) / c.half * (c.nRanks - 1) : ℕ) := by
    rw [Int.natCast_mul, Int.natCast_sub (by omega)]
    rfl
  refine ⟨⟨min c.half c.recvcount, (c.recvcount + c.half - 1) / c.half,
    (c.recvcount + c.half - 1) / c.half * (c.nRanks - 1)⟩, ?_, ?_⟩
  · unfold Config.setupPlan
    rw [hconfig]
    simp only [bind, Except.bind, pure, Except.pure]
    rw [hcast, if_neg (by omega), if_neg (by omega)]
    rfl
  · have hpos : 1 ≤ min c.half c.recvcount := by omega
    have hdiv := Nat.div_add_mod (c.recvcount + min c.half c.recvcount - 1)
      (min c.half c.recvcount)
    have hmod := Nat.mod_lt (c.recvcount + min c.half c.recvcount - 1) hpos
    rw [Nat.mul_comm, ← ceil_min hcount] at hdiv
    have hone : 1 ≤ (c.recvcount + c.half - 1) / c.half :=
      (Nat.le_div_iff_mul_le hhalf).mpr (by omega)
    exact {
      step_pos := hpos
      step_le := Nat.min_le_left _ _
      rounds_pos := hone
      last_lt := by
        simp only
        rw [Nat.sub_mul]
        omega
      le_last := by
        simp only
        omega
      kernel_eq := rfl }

theorem fits_of_partitions (hplan : c.setupPlan = .ok p) (hparts : Partitions c p) : c.Fits := by
  have hn := c.nRanks_ge
  cases hconfig : c.getRingConfig with
  | error e =>
    unfold Config.setupPlan at hplan
    rw [hconfig] at hplan
    cases hplan
  | ok config =>
    unfold Config.setupPlan at hplan
    rw [hconfig] at hplan
    simp only [bind, Except.bind, pure, Except.pure] at hplan
    split at hplan
    · cases hplan
    · rename_i hint
      split at hplan
      · cases hplan
      · rename_i hneg
        cases hplan
        obtain ⟨hpos, hstep, hsteps, hrounds⟩ := getRingConfig_cases hconfig
        have hcount : 1 ≤ c.recvcount := by omega
        have hhalf : 1 ≤ c.half := by omega
        have hceil : (c.recvcount + c.half - 1) / c.half =
            if c.recvcount % config.stepCount = 0 then c.recvcount / config.stepCount
            else c.recvcount / config.stepCount + 1 := by
          rw [ceil_min hcount, ← hstep, ceil_eq hpos]
        refine ⟨hcount, hhalf, ?_⟩
        rcases Nat.lt_or_ge (c.recvcount / config.stepCount) (2 ^ 31) with hlt | hge
        · rw [toInt_eq hlt] at hrounds
          have hexact : config.nRounds = ((c.recvcount + c.half - 1) / c.half : ℕ) := by
            rw [hceil]
            split <;> omega
          have hcast : ((c.recvcount + c.half - 1) / c.half : ℕ) * ((c.nRanks : ℤ) - 1) =
              ((c.recvcount + c.half - 1) / c.half * (c.nRanks - 1) : ℕ) := by
            rw [Int.natCast_mul, Int.natCast_sub (by omega)]
            rfl
          rw [hexact, hsteps, hcast] at hint
          omega
        · have hwrap := toInt_le hge
          obtain ⟨r, ⟨hr, _, hin⟩, _⟩ := hparts.unique (c.recvcount - 1) (by omega)
          have hle : config.nRounds ≤ toInt (c.recvcount / config.stepCount) + 1 := by
            rcases hrounds with ⟨_, heq⟩ | ⟨_, _, heq⟩
            · rw [heq]
              exact Int.le_of_lt (Int.lt_add_one_of_le (Int.le_refl _))
            · exact heq.le
          have hround : (r : ℤ) < config.nRounds := Int.lt_toNat.mp hr
          have hfew : r + 1 < c.recvcount / config.stepCount := by
            clear hrounds hint hneg hceil
            omega
          have hmul : (r + 1) * config.stepCount < c.recvcount / config.stepCount * config.stepCount :=
            Nat.mul_lt_mul_of_pos_right hfew (by omega)
          have hdiv := Nat.div_mul_le_self c.recvcount config.stepCount
          rw [Nat.succ_mul] at hmul
          unfold Config.roundCount at hin
          simp only at hin
          omega

/-! ### The work of a run -/

def Phase.started : Phase → ℕ
  | .init => 0
  | .waitRts | .waitNotify | .waitPut | .reduce | .finish => 1

theorem head_started (r : ℕ) : (Rank.head p r).started = 1 := by
  rw [head_eq]
  split <;> rfl

/-- The steps that a rank has done, its kernel's and the deliveries of its puts among them. -/
def Rank.work {α : Type} (c : Config) (x : Rank α) : ℕ :=
  x.phase.started + x.issued.length + x.delivered + x.consumed + x.posted + x.kernelSteps +
    x.number c

theorem next_work {α : Type} {r : ℕ} {x : Rank α} (hi : x.i < c.nRanks - 1) (hphase : x.phase = .reduce) :
    (x.next c p r).work c = x.work c + 1 := by
  unfold Rank.next
  split
  · simp only [Rank.work, Rank.number, Rank.nextStep, Phase.started, hphase]
    omega
  · simp only [Rank.work, Rank.number, Rank.nextRound, head_started, hphase, Nat.succ_mul]
    simp only [Phase.started]
    omega

/-- The work of a step: one rank has done more, and no other less. -/
def Worked (c : Config) {α : Type} (s s' : Ring α) : Prop :=
  ∃ r < c.nRanks, (s r).work c < (s' r).work c ∧ ∀ q < c.nRanks, (s q).work c ≤ (s' q).work c

theorem worked_update {α : Type} {s : Ring α} {r : ℕ} (hr : r < c.nRanks) {x : Rank α} (hlt : (s r).work c < x.work c) :
    Worked c s (Function.update s r x) := by
  refine ⟨r, hr, ?_, ?_⟩
  · rwa [Function.update_self]
  · intro q _
    by_cases hqr : q = r
    · subst hqr
      rw [Function.update_self]
      exact hlt.le
    · rw [Function.update_of_ne hqr]

/-! ### The end of a run -/

section Results

variable {α : Type} [AddCommMonoid α] {finish : α → α} {user scratch : ℕ → ℕ → α} {s : Ring α}

/-- The k-th put of a rank is the chunk of its round. It lands in the first half of the temporary
buffer, the second half has room for as much, and what is put from the send buffer lies there. -/
def PutsInside (c : Config) (p : Plan) (s : Ring α) : Prop :=
  ∀ r < c.nRanks, ∀ k put, (s r).issued[k]? = some put →
    put.count = c.roundCount p (k / (c.nRanks - 1)) ∧
      put.count * c.typeSize ≤ c.TMPBUF_SIZE / 2 ∧
      c.TMPBUF_SIZE / 2 + put.count * c.typeSize ≤ c.TMPBUF_SIZE ∧
      ∀ a, put.src = .user a → a + put.count ≤ c.nRanks * c.recvcount

/-- A put is issued when the right neighbour has reduced all that was put before, and the kernel
writes when the own put is done. -/
structure SlotsSafe (c : Config) (s : Ring α) : Prop where
  recvBuf : ∀ r < c.nRanks, (s r).issued.length ≤ (s (c.right r)).kernelSteps + 1
  redBuf : ∀ r < c.nRanks, (s r).kernelSteps < (s r).posted →
    (s r).delivered = (s r).issued.length

def AllFinished (c : Config) (s : Ring α) : Prop := ∀ r < c.nRanks, (s r).phase = .finish

/-- Both sides of every link and the kernel have done as many steps as the rounds have. -/
def Balanced (c : Config) (p : Plan) (s : Ring α) : Prop :=
  ∀ r < c.nRanks, (s r).issued.length = p.nRounds * (c.nRanks - 1) ∧
    (s r).delivered = (s r).issued.length ∧ (s (c.right r)).consumed = (s r).issued.length ∧
    (s r).kernelSteps = p.nStepsInterReduce ∧ p.nStepsInterReduce = p.nRounds * (c.nRanks - 1)

/-- Every rank has its own block, reduced over all ranks. -/
def Scattered (c : Config) (finish : α → α) (user : ℕ → ℕ → α) (s : Ring α) : Prop :=
  ∀ r < c.nRanks, ∀ e < c.recvcount, (s r).user (c.recvbuff r + e) =
    finish (∑ q ∈ Finset.range c.nRanks, user q (r * c.recvcount + e))

/-- No state is stuck before the end, and no run goes on for ever. -/
structure Ends (c : Config) (p : Plan) (finish : α → α) (user scratch : ℕ → ℕ → α) : Prop where
  progress : ∀ s, Ring.Reachable c p finish user scratch s → ¬ AllFinished c s →
    ∃ s', Ring.Step c p finish s s'
  stops : ∀ run : ℕ → Ring α, Ring.Reachable c p finish user scratch (run 0) →
    ∃ k, ¬ Ring.Step c p finish (run k) (run (k + 1))

theorem Good.round_lt (hgood : Good c p) {k : ℕ} (hk : k < c.total p) :
    k / (c.nRanks - 1) * p.stepCount < c.recvcount := by
  have hn := c.nRanks_ge
  have hround : k / (c.nRanks - 1) < p.nRounds := (Nat.div_lt_iff_lt_mul (by omega)).mpr hk
  have hle : k / (c.nRanks - 1) * p.stepCount ≤ (p.nRounds - 1) * p.stepCount :=
    Nat.mul_le_mul_right _ (by omega)
  exact hle.trans_lt hgood.last_lt

theorem Good.bytes_le (hgood : Good c p) (r : ℕ) :
    c.roundCount p r * c.typeSize ≤ c.TMPBUF_SIZE / 2 := by
  have hcount : c.roundCount p r ≤ c.TMPBUF_SIZE / 2 / c.typeSize := by
    have hle := hgood.step_le
    rw [Config.half, Nat.div_div_eq_div_mul, Nat.mul_comm, ← Nat.div_div_eq_div_mul] at hle
    exact (Nat.min_le_left _ _).trans hle
  exact (Nat.mul_le_mul_right _ hcount).trans (Nat.div_mul_le_self _ _)

section

variable (h : Inv c p finish user s)
include h

theorem Inv.putsInside (hgood : Good c p) : PutsInside c p s := by
  intro r hr k put hput
  have hinv := h.rank r hr
  have hlength := (List.getElem?_eq_some_iff.mp hput).1
  have hround := hgood.round_lt (hlength.trans_le hinv.bounded.2.1)
  have heq := hinv.puts k put hput
  have hcount : put.count = c.roundCount p (k / (c.nRanks - 1)) := by
    rw [heq]
    rfl
  have hbytes : put.count * c.typeSize ≤ c.TMPBUF_SIZE / 2 := by
    rw [hcount]
    exact hgood.bytes_le _
  refine ⟨hcount, hbytes, by omega, ?_⟩
  intro a ha
  rw [heq, Config.putAt] at ha
  simp only at ha
  split at ha
  · cases ha
    have hblock := le_mul_of_lt (c := c) (back_lt (d := 1) hr)
    rw [hcount]
    unfold Config.chunk Config.roundCount
    omega
  · cases ha

theorem Inv.slotsSafe : SlotsSafe c s := by
  constructor
  · intro r hr
    exact (h.link r hr).ahead (h.rank r hr).toCounters (h.rank _ (Config.right_lt r)).toCounters
  · intro r hr hposted
    obtain ⟨hphase, _⟩ := (h.rank r hr).reducing hposted
    exact (h.rank r hr).idle (by rw [hphase]; nofun) (by rw [hphase]; nofun)

section

variable (hgood : Good c p)
include hgood

theorem Inv.balanced (hall : AllFinished c s) : Balanced c p s := by
  intro r hr
  have hfinish := hall r hr
  have hinv := h.rank r hr
  have hright := h.rank _ (Config.right_lt (c := c) r)
  have hfinishRight := hall _ (Config.right_lt (c := c) r)
  obtain ⟨hissued, _, _, hposted⟩ := hinv.at_phase hfinish
  obtain ⟨_, _, hconsumed, _⟩ := hright.at_phase hfinishRight
  have hnumber := hinv.finished hfinish
  have hnumberRight := hright.finished hfinishRight
  have hleast := hinv.atLeast
  have hmost := hinv.atMost
  have hkernel := hgood.kernel_eq
  rw [Phase.put] at hissued
  rw [Phase.post] at hposted
  rw [Phase.notice] at hconsumed
  unfold Config.total at hnumber hnumberRight
  refine ⟨by omega, ?_, by omega, by omega, hkernel⟩
  exact hinv.idle (by simp [hfinish]) (by simp [hfinish])

theorem Inv.scattered (hall : AllFinished c s) : Scattered c finish user s := by
  intro r hr e he
  have hn := c.nRanks_ge
  obtain ⟨_, _, _, hsteps, hkernel⟩ := h.balanced hgood hall r hr
  apply (h.rank r hr).memory.done e he
  rw [hsteps, hkernel, Nat.mul_div_cancel _ (by omega)]
  exact (Nat.div_lt_iff_lt_mul hgood.step_pos).mpr (he.trans_le hgood.le_last)

/-! ### Progress -/

/-- Where nothing can be done, every rank waits for the right, for the left, or has finished, and
what has been put has arrived. -/
theorem Inv.stuck
    (hstuck : ¬ ∃ s', Ring.Step c p finish s s') {r : ℕ} (hr : r < c.nRanks) :
    (s r).delivered = (s r).issued.length ∧
      ((s r).phase = .waitRts ∨ (s r).phase = .waitNotify ∨ (s r).phase = .finish) := by
  have hinv := h.rank r hr
  have hdelivered : (s r).delivered = (s r).issued.length := by
    by_contra hne
    have hlt : (s r).delivered < (s r).issued.length := by
      have := hinv.delivered
      omega
    exact hstuck ⟨_, .deliver hr (List.getElem?_eq_getElem hlt)⟩
  refine ⟨hdelivered, ?_⟩
  cases hphase : (s r).phase with
  | init => exact absurd ⟨_, .isendCtrl hr hphase⟩ hstuck
  | waitRts => exact .inl rfl
  | waitNotify => exact .inr (.inl rfl)
  | waitPut => exact absurd ⟨_, .post hr hphase hdelivered⟩ hstuck
  | reduce =>
    rcases Nat.lt_or_eq_of_le hinv.atMost with hlt | heq
    · obtain ⟨_, hsteps⟩ := hinv.reducing hlt
      have hrunning := hinv.running (by rw [hphase]; nofun)
      have hkernel := hgood.kernel_eq
      unfold Config.total at hrunning
      exact absurd ⟨_, .kernel hr hlt (by omega)⟩ hstuck
    · exact absurd ⟨_, .next hr hphase heq⟩ hstuck
  | finish => exact .inr (.inr rfl)

theorem Inv.ahead_of_waitRts
    (hstuck : ¬ ∃ s', Ring.Step c p finish s s') {r : ℕ} (hr : r < c.nRanks)
    (hphase : (s r).phase = .waitRts) : (s (c.right r)).number c < (s r).number c := by
  have hinv := h.rank r hr
  have hright := h.rank _ (Config.right_lt (c := c) r)
  obtain ⟨_, htaken, _, _⟩ := hinv.at_phase hphase
  have hrunning := hinv.running (by rw [hphase]; nofun)
  have hno : ¬ (s r).rtsTaken < (s (c.right r)).rtsSent := fun hrts =>
    hstuck ⟨_, .iput hr hphase hrts⟩
  have hsent := hright.rtsSent_eq (by
    intro hinit
    obtain ⟨_, hp | hp | hp⟩ := h.stuck hgood hstuck (Config.right_lt (c := c) r) <;>
      rw [hinit] at hp <;> cases hp)
  rw [Phase.put] at htaken
  omega

theorem Inv.progress (hnot : ¬ AllFinished c s) : ∃ s', Ring.Step c p finish s s' := by
  have hn := c.nRanks_ge
  by_contra hstuck
  obtain ⟨r, hr, hmin⟩ := Finset.exists_min_image (Finset.range c.nRanks)
    (fun q => (s q).number c) ⟨0, Finset.mem_range.mpr (by omega)⟩
  simp only [Finset.mem_range] at hr hmin
  have hinv := h.rank r hr
  obtain ⟨_, hphase | hphase | hphase⟩ := h.stuck hgood hstuck hr
  · have hahead := h.ahead_of_waitRts hgood hstuck hr hphase
    have hle := hmin _ (Config.right_lt (c := c) r)
    omega
  · -- The left neighbour is as far, and has not put yet: it waits for this rank.
    have hleft := h.rank _ (Config.left_lt (c := c) r)
    obtain ⟨harrived, hleftPhase⟩ := h.stuck hgood hstuck (Config.left_lt (c := c) r)
    have hle := hmin _ (Config.left_lt (c := c) r)
    have hrunning := hinv.running (by rw [hphase]; nofun)
    obtain ⟨_, _, hconsumed, _⟩ := hinv.at_phase hphase
    have hno : ¬ (s r).consumed < (s (c.left r)).delivered := fun hlt =>
      hstuck ⟨_, .notified hr hphase hlt⟩
    rw [Phase.notice] at hconsumed
    rcases hleftPhase with hp | hp | hp
    · have hahead := h.ahead_of_waitRts hgood hstuck (Config.left_lt (c := c) r) hp
      have hissued := (hleft.at_phase hp).1
      rw [Config.right_left hr] at hahead
      rw [Phase.put] at hissued
      omega
    · have hissued := (hleft.at_phase hp).1
      rw [Phase.put] at hissued
      omega
    · have hnumber := hleft.finished hp
      have hissued := (hleft.at_phase hp).1
      rw [Phase.put] at hissued
      omega
  · apply hnot
    intro q hq
    have hnumber := hinv.finished hphase
    have hle := hmin q hq
    by_contra hrun
    have hlt := (h.rank q hq).running hrun
    omega

end

end

/-! ### Termination -/

theorem work_le {r : ℕ} {x : Rank α} (h : RankInv c p finish user r x) :
    x.work c ≤ 1 + 6 * c.total p := by
  obtain ⟨hnumber, hissued, hconsumed, hposted⟩ := h.bounded
  have hdelivered := h.delivered
  have hsteps := h.atMost
  have hstarted : x.phase.started ≤ 1 := by cases x.phase <;> decide
  unfold Rank.work
  omega

theorem kernel_work (x : Rank α) : (x.kernel finish).work c = x.work c + 1 := by
  unfold Rank.kernel
  split <;> simp only [Rank.work, Rank.number] <;> omega

theorem Inv.worked (h : Inv c p finish user s) {s' : Ring α}
    (hstep : Ring.Step c p finish s s') : Worked c s s' := by
  cases hstep with
  | @isendCtrl r hr hphase =>
    apply worked_update hr
    simp only [Rank.work, Rank.number, Rank.isendCtrl, hphase, head_started]
    simp only [Phase.started]
    omega
  | @iput r hr hphase hrts =>
    apply worked_update hr
    simp only [Rank.work, Rank.number, Rank.iput, hphase, Phase.started, List.length_append,
      List.length_singleton]
    omega
  | @notified r hr hphase harrived =>
    apply worked_update hr
    simp only [Rank.work, Rank.number, Rank.notified, hphase, Phase.started]
    omega
  | @post r hr hphase hdone =>
    apply worked_update hr
    simp only [Rank.work, Rank.number, Rank.post, hphase, Phase.started]
    omega
  | @kernel r hr hposted _ =>
    apply worked_update hr
    rw [kernel_work]
    exact Nat.lt_succ_self _
  | @next r hr hphase hdone =>
    apply worked_update hr
    rw [next_work (h.rank r hr).index hphase]
    exact Nat.lt_succ_self _
  | @deliver r put hr hput =>
    have hsent : (s r).sent.work c = (s r).work c + 1 := by
      simp only [Rank.work, Rank.number, Rank.sent]
      omega
    have harrive : ∀ values, ((s (c.right r)).arrive put.count values).work c =
        (s (c.right r)).work c := fun _ => rfl
    unfold Ring.deliver
    refine ⟨r, hr, ?_, ?_⟩
    · rw [Function.update_of_ne (Config.right_ne hr).symm, Function.update_self, hsent]
      exact Nat.lt_succ_self _
    · intro q _
      by_cases hright : q = c.right r
      · subst hright
        rw [Function.update_self, harrive]
      · rw [Function.update_of_ne hright]
        by_cases hqr : q = r
        · subst hqr
          rw [Function.update_self, hsent]
          exact Nat.le_succ _
        · rw [Function.update_of_ne hqr]

theorem Good.ends (hgood : Good c p) (user scratch : ℕ → ℕ → α) : Ends c p finish user scratch where
  progress s hreach hnot := Inv.progress (hreach.inv hgood) hgood hnot
  stops run hreach := by
    apply exists_stop (Inv c p finish user) (fun s => ∑ r ∈ Finset.range c.nRanks, (s r).work c)
      (c.nRanks * (1 + 6 * c.total p))
    · exact fun s s' hinv hstep => hinv.step hgood hstep
    · intro s s' hinv hstep
      obtain ⟨r, hr, hlt, hle⟩ := hinv.worked hstep
      exact sum_work_lt hr hlt hle
    · exact fun s hinv => sum_work_le fun r hr => work_le (hinv.rank r hr)
    · exact hreach.inv hgood

end Results

/-- The ring is right for a configuration: it can be planned, its chunks cut the block up, and every
run stays in its buffers, ends, and leaves every rank with its reduced block. -/
def Config.Correct (c : Config) : Prop :=
  ∃ p, c.setupPlan = .ok p ∧ Partitions c p ∧
    ∀ (α : Type) [AddCommMonoid α] (finish : α → α) (user scratch : ℕ → ℕ → α),
      Ends c p finish user scratch ∧
      ∀ s, Ring.Reachable c p finish user scratch s →
        PutsInside c p s ∧ SlotsSafe c s ∧
        (AllFinished c s → Balanced c p s ∧ Scattered c finish user s)

theorem Config.correct_iff (c : Config) : c.Correct ↔ c.Fits := by
  constructor
  · rintro ⟨p, hplan, hparts, _⟩
    exact fits_of_partitions hplan hparts
  · intro hfits
    obtain ⟨p, hplan, hgood⟩ := plan_of_fits hfits
    refine ⟨p, hplan, hgood.partitions, ?_⟩
    intro α _ finish user scratch
    refine ⟨hgood.ends user scratch, ?_⟩
    intro s hreach
    have hinv := hreach.inv hgood
    exact ⟨hinv.putsInside hgood, hinv.slotsSafe,
      fun hall => ⟨hinv.balanced hgood hall, hinv.scattered hgood hall⟩⟩

/-- A block of no elements. -/
def Config.empty : Config where
  nRanks := 2
  nRanks_ge := Nat.one_lt_two
  nRanks_int := (by decide : 2 < 2147483648)
  recvcount := 0
  typeSize := 4
  typeSize_pos := by decide
  sendbuff_fits := by decide
  TMPBUF_SIZE := 33554432
  inplace := fun _ => false

theorem Config.not_correct_empty :
    Config.empty.getRingConfig = .error .divByZero ∧ ¬ Config.empty.Correct := by
  have hconfig : Config.empty.getRingConfig = .error .divByZero := by decide
  refine ⟨hconfig, ?_⟩
  rintro ⟨p, hplan, _⟩
  unfold Config.setupPlan at hplan
  rw [hconfig] at hplan
  cases hplan

end TorchComms.Algos.ReduceScatterRing
