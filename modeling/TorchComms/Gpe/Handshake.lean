import TorchComms.Gpe.KernelFlag

/-! # The start and terminate handshake

The blocks of one kernel and the GPE thread's command for it, over the flags of the kernel. A block
is stranded when it waits for a value that the GPE thread will not write any more.
-/
namespace TorchComms.Gpe

open Function Relation

/-- The blocks and the GPE thread with the flags of one kernel. `enableCancellableWaits` of the
device state is `abortEnabled` of the communicator. -/
structure Handshake where
  flag : Flags
  block : ℕ → BlockPhase
  gpe : GpePhase
  testAbort : Bool

namespace Handshake

/-- After `onPop`. -/
def init : Handshake where
  flag := fun _ => .KERNEL_SCHEDULED
  block := fun _ => .scheduled
  gpe := .waitStart
  testAbort := false

inductive Op
  | block (i : ℕ)
  | gpe
  | abort
  deriving DecidableEq, Repr

inductive Step (numGroups : ℕ) (abortEnabled : Bool) (s : Handshake) : Op → Handshake → Prop
  | block (i : ℕ) (p : BlockPhase) (f : KernelFlag) (hi : i < numGroups)
      (h : BlockStep abortEnabled (s.block i) (s.flag i) p f) :
      Step numGroups abortEnabled s (.block i)
        { s with block := update s.block i p, flag := update s.flag i f }
  | gpe (p : GpePhase) (h : s.gpe.next numGroups abortEnabled s.testAbort s.flag = some p) :
      Step numGroups abortEnabled s .gpe
        { s with gpe := p, flag := s.gpe.effect numGroups s.flag }
  | abort (h : abortEnabled = true) :
      Step numGroups abortEnabled s .abort { s with testAbort := true }

/-- The states of the runs whose steps all meet a condition. -/
inductive Reachable (numGroups : ℕ) (abortEnabled : Bool) (cond : Handshake → Op → Prop) :
    Handshake → Prop
  | init : Reachable numGroups abortEnabled cond init
  | step {s s' : Handshake} {op : Op} (h : Reachable numGroups abortEnabled cond s)
      (hstep : Step numGroups abortEnabled s op s') (hop : cond s op) :
      Reachable numGroups abortEnabled cond s'

/-- In some continuation the GPE thread writes the flag. -/
def StillWritten (numGroups : ℕ) (abortEnabled : Bool) (s : Handshake) (i : ℕ) : Prop :=
  ∃ s' v, ReflTransGen (fun s s' => ∃ op, Step numGroups abortEnabled s op s') s s' ∧
    s'.gpe.stores numGroups = some (i, v)

/-- No block waits in vain, and the flag of a block that has exited is free. -/
structure Sound (numGroups : ℕ) (abortEnabled : Bool) (s : Handshake) : Prop where
  released : ∀ i < numGroups, s.block i = .waiting → (s.flag i).releases abortEnabled = false →
    s.StillWritten numGroups abortEnabled i
  unset : ∀ i < numGroups, s.block i = .exited → s.flag i = .KERNEL_UNSET

/-- A block does not store its start value over one that releases it, and the flag that the GPE
thread rewrites still holds the value that it was tested for. -/
def Meets (s : Handshake) : Op → Prop
  | .block i => s.block i = .starting →
      s.flag i ≠ .KERNEL_TERMINATE ∧ s.flag i ≠ .KERNEL_HOST_ABORT
  | .gpe => ∀ i, s.gpe = .rewrite i → s.flag i = .KERNEL_TERMINATE
  | .abort => True

variable {numGroups : ℕ} {abortEnabled : Bool} {s s' : Handshake} {op : Op} {i : ℕ}

/-! ## What the flags hold -/

/-- The GPE thread has released the block. -/
def Written (s : Handshake) (i : ℕ) : Prop :=
  match s.gpe with
  | .settling _ j => i < j
  | .waitUnset _ | .rewriting _ | .rewrite _ | .done => True
  | _ => False

/-- The flag of a block that the GPE thread has not yet released. -/
def Before (p : BlockPhase) (f : KernelFlag) : Prop :=
  (p = .scheduled ∨ p = .starting) ∧ f = .KERNEL_SCHEDULED ∨
    (p = .running ∨ p = .waiting) ∧ f = .KERNEL_STARTED

/-- The flag of a block that it has released. -/
def After (abortEnabled : Bool) (p : BlockPhase) (f : KernelFlag) : Prop :=
  p = .exited ∧ f = .KERNEL_UNSET ∨ p ≠ .exited ∧ f.releases abortEnabled = true

/-- Where the GPE thread can be, for a kernel whose blocks wait for it. -/
def Places (numGroups : ℕ) (abortEnabled testAbort : Bool) : GpePhase → Prop
  | .settling v _ => v.releases abortEnabled = true
  | .rewriting _ => abortEnabled = true
  | .rewrite i => abortEnabled = true ∧ i < numGroups
  | .waitExit _ | .resetting _ => False
  | _ => testAbort = true → abortEnabled = true

structure Inv (numGroups : ℕ) (abortEnabled : Bool) (s : Handshake) : Prop where
  enabled : s.testAbort = true → abortEnabled = true
  places : Places numGroups abortEnabled s.testAbort s.gpe
  before : ∀ i < numGroups, ¬s.Written i → Before (s.block i) (s.flag i)
  after : ∀ i < numGroups, s.Written i → After abortEnabled (s.block i) (s.flag i)

theorem inv_init : Inv numGroups abortEnabled init where
  enabled := by simp [init]
  places := by simp [init, Places]
  before := by simp [init, Before]
  after := by simp [init, Written]

theorem before_step {p p' : BlockPhase} {f f' : KernelFlag} (h : Before p f)
    (hstep : BlockStep abortEnabled p f p' f') : Before p' f' := by
  cases hstep with
  | leave f hf => rcases h with ⟨-, rfl⟩ | ⟨-, rfl⟩ <;> simp [KernelFlag.releases] at hf
  | _ => simp_all [Before]

theorem after_step {p p' : BlockPhase} {f f' : KernelFlag} (h : After abortEnabled p f)
    (hstart : p = .starting → f ≠ .KERNEL_TERMINATE ∧ f ≠ .KERNEL_HOST_ABORT)
    (hstep : BlockStep abortEnabled p f p' f') : After abortEnabled p' f' := by
  cases hstep with
  | start f =>
    -- the flag holds a value that the store would lose
    obtain ⟨hne, hne'⟩ := hstart rfl
    simp [After, KernelFlag.releases, hne, hne'] at h
  | _ => simp_all [After]

variable {p : BlockPhase} {f : KernelFlag}

theorem Inv.block (h : Inv numGroups abortEnabled s)
    (hstep : BlockStep abortEnabled (s.block i) (s.flag i) p f) (hop : s.Meets (.block i)) :
    Inv numGroups abortEnabled
      { s with block := update s.block i p, flag := update s.flag i f } where
  __ := h
  before := by
    intro j hj hw
    by_cases hji : j = i
    · subst hji
      simpa using before_step (h.before j hj hw) hstep
    · simpa [hji] using h.before j hj hw
  after := by
    intro j hj hw
    by_cases hji : j = i
    · subst hji
      simpa using after_step (h.after j hj hw) hop hstep
    · simpa [hji] using h.after j hj hw

theorem Inv.silent (h : Inv numGroups abortEnabled s) {p : GpePhase}
    (hstores : s.gpe.stores numGroups = none) (hplaces : Places numGroups abortEnabled s.testAbort p)
    (hwritten : ∀ i < numGroups, { s with gpe := p }.Written i ↔ s.Written i) :
    Inv numGroups abortEnabled { s with gpe := p, flag := s.gpe.effect numGroups s.flag } := by
  have hflag : s.gpe.effect numGroups s.flag = s.flag := by
    simp [GpePhase.effect, hstores]
  rw [hflag]
  refine ⟨h.enabled, hplaces, ?_, ?_⟩
  · exact fun i hi hw => h.before i hi fun hw' => hw ((hwritten i hi).2 hw')
  · exact fun i hi hw => h.after i hi ((hwritten i hi).1 hw)

variable {v : KernelFlag}

/-- A step that stores a releasing value to a flag whose block has not exited. -/
theorem Inv.store (h : Inv numGroups abortEnabled s) {p : GpePhase}
    (hi : i < numGroups) (hstores : s.gpe.stores numGroups = some (i, v))
    (hv : v.releases abortEnabled = true) (hblock : s.block i ≠ .exited)
    (hplaces : Places numGroups abortEnabled s.testAbort p)
    (hwritten : ∀ j < numGroups, { s with gpe := p }.Written j ↔ j = i ∨ s.Written j) :
    Inv numGroups abortEnabled { s with gpe := p, flag := s.gpe.effect numGroups s.flag } := by
  have hflag : s.gpe.effect numGroups s.flag = update s.flag i v := by
    simp [GpePhase.effect, hstores]
  rw [hflag]
  refine ⟨h.enabled, hplaces, ?_, ?_⟩
  · intro j hj hw
    have hnot : ¬(j = i ∨ s.Written j) := fun hor => hw ((hwritten j hj).2 hor)
    have hji : j ≠ i := fun heq => hnot (.inl heq)
    simpa [hji] using h.before j hj fun hw' => hnot (.inr hw')
  · intro j hj hw
    by_cases hji : j = i
    · subst hji
      exact .inr ⟨hblock, by simpa using hv⟩
    · simpa [hji] using h.after j hj (((hwritten j hj).1 hw).resolve_left hji)

theorem Before.not_exited (h : Before p f) : p ≠ .exited := by
  rintro rfl
  simp [Before] at h

theorem Before.not_exit_flag (h : Before p f) : f ≠ .KERNEL_STARTED_AND_EXIT := by
  rintro rfl
  simp [Before] at h

theorem Inv.gpe (hgroups : 0 < numGroups) (h : Inv numGroups abortEnabled s) {p : GpePhase}
    (hnext : s.gpe.next numGroups abortEnabled s.testAbort s.flag = some p) (hop : s.Meets .gpe) :
    Inv numGroups abortEnabled { s with gpe := p, flag := s.gpe.effect numGroups s.flag } := by
  have henabled := h.enabled
  have hplaces := h.places
  cases hgpe : s.gpe with
  | waitStart =>
    simp only [hgpe, GpePhase.next, Option.ite_none_right_eq_some, Option.some.injEq] at hnext
    obtain ⟨-, rfl⟩ := hnext
    rw [← hgpe]
    exact h.silent (by simp [hgpe, GpePhase.stores]) henabled (by simp [Written, hgpe])
  | running =>
    have hexit : s.flag 0 ≠ .KERNEL_STARTED_AND_EXIT :=
      (h.before 0 hgroups (by simp [Written, hgpe])).not_exit_flag
    simp only [hgpe, GpePhase.next, if_neg hexit, Option.some.injEq] at hnext
    subst hnext
    rw [← hgpe]
    refine h.silent (by simp [hgpe, GpePhase.stores]) ?_ (by simp [Written, hgpe])
    cases hab : s.testAbort
    · rfl
    · simp [Places, KernelFlag.releases, henabled hab]
  | settling v i =>
    rw [hgpe] at hplaces
    by_cases hi : i < numGroups
    · simp only [hgpe, GpePhase.next, if_pos hi, Option.some.injEq] at hnext
      subst hnext
      rw [← hgpe]
      have hbefore := h.before i hi (by simp [Written, hgpe])
      refine h.store hi (by simp [hgpe, GpePhase.stores, hi]) hplaces hbefore.not_exited hplaces ?_
      intro j _
      simp only [Written, hgpe]
      omega
    · simp only [hgpe, GpePhase.next, if_neg hi] at hnext
      have hall : ∀ j < numGroups, j < i := fun j hj => by omega
      rw [← hgpe]
      split at hnext
      · cases hnext
        refine h.silent (by simp [hgpe, GpePhase.stores, hi]) henabled ?_
        intro j hj
        simp [Written, hgpe, hall j hj]
      · cases hnext
        refine h.silent (by simp [hgpe, GpePhase.stores, hi]) henabled ?_
        intro j hj
        simp [Written, hgpe, hall j hj]
  | waitUnset i =>
    simp only [hgpe, GpePhase.next] at hnext
    rw [← hgpe]
    split_ifs at hnext with hi hab
    · cases hnext
      exact h.silent (by simp [hgpe, GpePhase.stores]) henabled (by simp [Written, hgpe])
    · cases hnext
      exact h.silent (by simp [hgpe, GpePhase.stores]) (henabled hab) (by simp [Written, hgpe])
    · cases hnext
      exact h.silent (by simp [hgpe, GpePhase.stores]) henabled (by simp [Written, hgpe])
    · cases hnext
      exact h.silent (by simp [hgpe, GpePhase.stores]) henabled (by simp [Written, hgpe])
  | rewriting i =>
    rw [hgpe] at hplaces
    simp only [hgpe, GpePhase.next] at hnext
    rw [← hgpe]
    split_ifs at hnext with hi hflag
    · cases hnext
      exact h.silent (by simp [hgpe, GpePhase.stores]) ⟨hplaces, hi⟩ (by simp [Written, hgpe])
    · cases hnext
      exact h.silent (by simp [hgpe, GpePhase.stores]) hplaces (by simp [Written, hgpe])
    · cases hnext
      exact h.silent (by simp [hgpe, GpePhase.stores]) henabled (by simp [Written, hgpe])
  | rewrite i =>
    rw [hgpe] at hplaces
    obtain ⟨hab, hi⟩ := hplaces
    simp only [hgpe, GpePhase.next, Option.some.injEq] at hnext
    subst hnext
    rw [← hgpe]
    have hblock : s.block i ≠ .exited := by
      intro hexited
      have hafter := h.after i hi (by simp [Written, hgpe])
      simp [After, hexited, hop i hgpe] at hafter
    exact h.store (v := .KERNEL_HOST_ABORT) hi (by simp [hgpe, GpePhase.stores])
      (by simp [KernelFlag.releases, hab]) hblock hab (by simp [Written, hgpe])
  | waitExit i => simp [hgpe, Places] at hplaces
  | resetting i => simp [hgpe, Places] at hplaces
  | done => simp [hgpe, GpePhase.next] at hnext

theorem Step.inv (hgroups : 0 < numGroups) (hstep : Step numGroups abortEnabled s op s')
    (hop : s.Meets op) (h : Inv numGroups abortEnabled s) : Inv numGroups abortEnabled s' := by
  cases hstep with
  | block i p f hi hb => exact h.block hb hop
  | gpe p hnext => exact h.gpe hgroups hnext hop
  | abort hab =>
    refine ⟨fun _ => hab, ?_, h.before, h.after⟩
    have hplaces := h.places
    change Places numGroups abortEnabled true s.gpe
    cases hgpe : s.gpe <;> simp_all [Places]

/-! ## A block that still waits -/

theorem StillWritten.of_step (hstep : Step numGroups abortEnabled s op s')
    (h : s'.StillWritten numGroups abortEnabled i) : s.StillWritten numGroups abortEnabled i := by
  obtain ⟨t, v, hreach, hstores⟩ := h
  exact ⟨t, v, hreach.head ⟨op, hstep⟩, hstores⟩

theorem stillWritten_settling (d : ℕ) :
    ∀ {s : Handshake} {j : ℕ}, s.gpe = .settling v j → j + d = i → i < numGroups →
      s.StillWritten numGroups abortEnabled i := by
  induction d with
  | zero =>
    intro s j hgpe hj hi
    have hji : j = i := by omega
    subst hji
    exact ⟨s, v, .refl, by simp [hgpe, GpePhase.stores, hi]⟩
  | succ d ih =>
    intro s j hgpe hj hi
    have hjn : j < numGroups := by omega
    have hstep : Step numGroups abortEnabled s .gpe _ :=
      .gpe (.settling v (j + 1)) (by simp [hgpe, GpePhase.next, hjn])
    exact .of_step hstep (ih rfl (by omega) hi)

theorem stillWritten_running (hgpe : s.gpe = .running)
    (hexit : s.flag 0 ≠ .KERNEL_STARTED_AND_EXIT) (hi : i < numGroups) :
    s.StillWritten numGroups abortEnabled i := by
  have hstep : Step numGroups abortEnabled s .gpe _ :=
    .gpe (.settling (if s.testAbort then .KERNEL_HOST_ABORT else .KERNEL_TERMINATE) 0)
      (by simp [hgpe, GpePhase.next, hexit])
  exact .of_step hstep (stillWritten_settling i rfl (by omega) hi)

section

variable (hgpe : s.gpe = .waitStart)
include hgpe

theorem stillWritten_started (hflag : s.flag 0 = .KERNEL_STARTED)
    (hi : i < numGroups) : s.StillWritten numGroups abortEnabled i := by
  have hstep : Step numGroups abortEnabled s .gpe _ :=
    .gpe .running (by simp [hgpe, GpePhase.next, hflag])
  refine .of_step hstep (stillWritten_running rfl ?_ hi)
  simp [hgpe, GpePhase.effect, GpePhase.stores, hflag]

theorem stillWritten_starting (hblock : s.block 0 = .starting)
    (hi : i < numGroups) : s.StillWritten numGroups abortEnabled i := by
  have hstep : Step numGroups abortEnabled s (.block 0) _ :=
    .block 0 .running .KERNEL_STARTED (by omega) (hblock ▸ .start (s.flag 0))
  exact .of_step hstep (stillWritten_started hgpe (by simp) hi)

theorem stillWritten_scheduled (hblock : s.block 0 = .scheduled)
    (hflag : s.flag 0 = .KERNEL_SCHEDULED) (hi : i < numGroups) :
    s.StillWritten numGroups abortEnabled i := by
  have hstep : Step numGroups abortEnabled s (.block 0) _ :=
    .block 0 .starting (s.flag 0) (by omega) (hblock ▸ .test (s.flag 0) (by simp [hflag]))
  exact .of_step hstep (stillWritten_starting hgpe (by simp) hi)

end

theorem Inv.stillWritten (h : Inv numGroups abortEnabled s) (hi : i < numGroups)
    (hw : ¬s.Written i) : s.StillWritten numGroups abortEnabled i := by
  have hplaces := h.places
  cases hgpe : s.gpe with
  | waitStart =>
    rcases h.before 0 (by omega) (by simp [Written, hgpe]) with ⟨hb | hb, hf⟩ | ⟨-, hf⟩
    · exact stillWritten_scheduled hgpe hb hf hi
    · exact stillWritten_starting hgpe hb hi
    · exact stillWritten_started hgpe hf hi
  | running =>
    exact stillWritten_running hgpe
      (h.before 0 (by omega) (by simp [Written, hgpe])).not_exit_flag hi
  | settling v j =>
    have hji : j ≤ i := by simpa [Written, hgpe] using hw
    exact stillWritten_settling (i - j) hgpe (by omega) hi
  | waitExit j => simp [hgpe, Places] at hplaces
  | resetting j => simp [hgpe, Places] at hplaces
  | _ => simp [Written, hgpe] at hw

theorem Inv.sound (h : Inv numGroups abortEnabled s) : s.Sound numGroups abortEnabled where
  released := by
    intro i hi hwait hflag
    apply h.stillWritten hi
    intro hw
    have hafter := h.after i hi hw
    simp [After, hwait, hflag] at hafter
  unset := by
    intro i hi hexited
    have hw : s.Written i := by
      by_contra hw
      exact (h.before i hi hw).not_exited hexited
    have hafter := h.after i hi hw
    simpa [After, hexited] using hafter

/-- No block is stranded, in every run in which no block starts after it was released, and none
exits while the GPE thread rewrites its flag. -/
theorem handshake_sound (hgroups : 0 < numGroups) (h : Reachable numGroups abortEnabled Meets s) :
    s.Sound numGroups abortEnabled := by
  have hinv : Inv numGroups abortEnabled s := by
    induction h with
    | init => exact inv_init
    | step _ hstep hop ih => exact hstep.inv hgroups hop ih
  exact hinv.sound

/-- Two blocks, the first of which has exited while the second still waits. -/
theorem handshake_sound_two : ∃ s, Reachable 2 true Meets s ∧ s.block 0 = .exited ∧ s.block 1 = .waiting ∧
    s.Sound 2 true := by
  have h1 : Reachable 2 true Meets _ :=
    Reachable.init.step (.block 0 _ _ (by decide) (.test _ (by decide))) (by simp [Meets, init])
  have h2 := h1.step (.block 0 _ _ (by decide) (.start _)) (by simp [Meets, init])
  have h3 := h2.step (.block 1 _ _ (by decide) (.test _ (by decide))) (by simp [Meets, init])
  have h4 := h3.step (.block 1 _ _ (by decide) (.start _)) (by simp [Meets, init])
  have h5 := h4.step (.gpe .running rfl) nofun
  have h6 := h5.step (.gpe (.settling .KERNEL_TERMINATE 0) rfl) nofun
  have h7 := h6.step (.gpe (.settling .KERNEL_TERMINATE 1) rfl) nofun
  have h8 := h7.step (.block 0 _ _ (by decide) (.work _)) nofun
  have h9 := h8.step (.block 0 _ _ (by decide) (.leave _ rfl)) nofun
  have h10 := h9.step (.block 0 _ _ (by decide) (.unset _)) nofun
  have h11 := h10.step (.block 1 _ _ (by decide) (.work _)) nofun
  exact ⟨_, h11, rfl, rfl, handshake_sound (by decide) h11⟩

theorem not_stillWritten_done (hgpe : s.gpe = .done) : ¬s.StillWritten numGroups abortEnabled i := by
  rintro ⟨s', v, hreach, hstores⟩
  have hdone : s'.gpe = .done := by
    clear hstores
    induction hreach with
    | refl => exact hgpe
    | tail _ hstep ih =>
      obtain ⟨op, hstep⟩ := hstep
      cases hstep with
      | block i p f hi hb => exact ih
      | gpe p hnext => simp [ih, GpePhase.next] at hnext
      | abort hab => exact ih
  simp [hdone, GpePhase.stores] at hstores

/-- Block 1 of a kernel starts when the GPE thread has finished, and stores `KERNEL_STARTED` over
`KERNEL_TERMINATE`. -/
theorem stranded_two : ¬∀ s, Reachable 2 false (fun _ _ => True) s → s.Sound 2 false := by
  intro hall
  have h1 : Reachable 2 false (fun _ _ => True) _ :=
    Reachable.init.step (.block 0 _ _ (by decide) (.test _ (by decide))) trivial
  have h2 := h1.step (.block 0 _ _ (by decide) (.start _)) trivial
  have h3 := h2.step (.gpe .running rfl) trivial
  have h4 := h3.step (.gpe (.settling .KERNEL_TERMINATE 0) rfl) trivial
  have h5 := h4.step (.gpe (.settling .KERNEL_TERMINATE 1) rfl) trivial
  have h6 := h5.step (.gpe (.settling .KERNEL_TERMINATE 2) rfl) trivial
  have h7 := h6.step (.gpe .done rfl) trivial
  have h8 := h7.step (.block 1 _ _ (by decide) (.test _ (by decide))) trivial
  have h9 := h8.step (.block 1 _ _ (by decide) (.start _)) trivial
  have h10 := h9.step (.block 1 _ _ (by decide) (.work _)) trivial
  exact not_stillWritten_done rfl ((hall _ h10).released 1 (by decide) rfl rfl)

end Handshake

end TorchComms.Gpe
