import TorchComms.CollTrace.TracingThread
import Mathlib.Data.List.Nodup

/-! # The watchdog

`WatchdogPlugin` times the event that progresses. It knows the event by its address, and restarts
its timer when it sees another address.
-/
namespace TorchComms.CollTrace

open Function

/-- Times are in nanoseconds. -/
structure WatchdogPluginConfig where
  checkAsyncError : Bool
  checkTimeout : Bool
  timeout : ℕ

structure WatchdogPlugin where
  lastEvent_ : Option ℕ
  timer_ : ℕ

inductive Trigger
  | funcTriggerOnError
  | funcTriggerOnTimeout
  deriving DecidableEq, Repr

/-- The check for an asynchronous error, where `funcIfError` returns `ifError`. -/
def asyncError (config : WatchdogPluginConfig) (ifError : Bool) : List Trigger :=
  if config.checkAsyncError && ifError then [.funcTriggerOnError] else []

/-- `curEvent` is the event's address and `now` what the stop watch reads. -/
def collEventProgressing (config : WatchdogPluginConfig) (plugin : WatchdogPlugin)
    (curEvent now : ℕ) (ifError : Bool) : List Trigger × WatchdogPlugin :=
  if config.checkTimeout then
    if plugin.lastEvent_ = some curEvent ∧ plugin.timer_ + config.timeout ≤ now then
      (asyncError config ifError ++ [.funcTriggerOnTimeout], plugin)
    else if plugin.lastEvent_ ≠ some curEvent then
      (asyncError config ifError, ⟨some curEvent, now⟩)
    else (asyncError config ifError, plugin)
  else (asyncError config ifError, plugin)

section Plugin

variable {config : WatchdogPluginConfig} {plugin : WatchdogPlugin} {curEvent now : ℕ}
  {ifError : Bool}

theorem timeout_mem : .funcTriggerOnTimeout ∈
    (collEventProgressing config plugin curEvent now ifError).1 ↔
      config.checkTimeout = true ∧ plugin.lastEvent_ = some curEvent ∧
        plugin.timer_ + config.timeout ≤ now := by
  have herr : Trigger.funcTriggerOnTimeout ∉ asyncError config ifError := by
    unfold asyncError
    split <;> simp
  unfold collEventProgressing
  split_ifs with hcheck helapsed hother
  · exact ⟨fun _ => ⟨hcheck, helapsed⟩, fun _ => List.mem_append_right _ (by simp)⟩
  · exact ⟨fun h => absurd h herr, fun h => absurd h.2 helapsed⟩
  · exact ⟨fun h => absurd h herr, fun h => absurd h.2 helapsed⟩
  · exact ⟨fun h => absurd h herr, fun h => absurd h.1 hcheck⟩

theorem progressing_same (h : plugin.lastEvent_ = some curEvent) :
    (collEventProgressing config plugin curEvent now ifError).2 = plugin := by
  unfold collEventProgressing
  split_ifs <;> first | rfl | contradiction

theorem progressing_other (hcheck : config.checkTimeout = true)
    (h : plugin.lastEvent_ ≠ some curEvent) :
    (collEventProgressing config plugin curEvent now ifError).2 = ⟨some curEvent, now⟩ := by
  simp [collEventProgressing, hcheck, h]

end Plugin

/-- The tracing thread with the plugin. Events are numbered as they are allocated, and `addr` tells
where the live ones are. The times of an event's first and last calls of `collEventProgressing`, the
checkpoint that its first call found at its own address, and the events for which
`funcTriggerOnTimeout` was called are a history, which nothing reads. -/
structure Watched where
  phase : TracePhase
  plugin : WatchdogPlugin
  now : ℕ
  allocated : ℕ
  addr : ℕ → Option ℕ
  pendingTraceColls_ : List ℕ
  first : ℕ → Option ℕ
  last : ℕ → Option ℕ
  inherited : ℕ → Option ℕ
  timedOut : ℕ → Bool

namespace Watched

/-- The stop watch starts when the plugin is made. -/
def init : Watched where
  phase := .getNextPendingEvent
  plugin := ⟨none, 0⟩
  now := 0
  allocated := 0
  addr := fun _ => none
  pendingTraceColls_ := []
  first := fun _ => none
  last := fun _ => none
  inherited := fun _ => none
  timedOut := fun _ => false

/-- The thread goes on, and the event that it leaves is destroyed. -/
def goOn (s : Watched) (phase : TracePhase) : Watched :=
  { s with
    phase := phase
    addr := match s.phase.event, phase.event with
      | some e, none => update s.addr e none
      | _, _ => s.addr }

/-- One call of `collEventProgressing` for the event `e` at the address `a`. -/
def progress (config : WatchdogPluginConfig) (s : Watched) (e a : ℕ) (ifError : Bool) : Watched :=
  let r := collEventProgressing config s.plugin a s.now ifError
  { s with
    plugin := r.2
    first := if (s.first e).isNone then update s.first e (some s.now) else s.first
    last := update s.last e (some s.now)
    inherited :=
      if (s.first e).isNone ∧ s.plugin.lastEvent_ = some a then
        update s.inherited e (some s.plugin.timer_)
      else s.inherited
    timedOut := if .funcTriggerOnTimeout ∈ r.1 then update s.timedOut e true else s.timedOut }

inductive Op
  | record (addr : ℕ)
  | elapse (d : ℕ)
  | thread (a : TraceAction)
  | poll (r : WaitResult) (e : ℕ) (ifError : Bool)
  deriving DecidableEq

/-- The allocator gives a new event any address that is not in use. -/
inductive Step (config : WatchdogPluginConfig) (s : Watched) : Op → Watched → Prop
  | record (a : ℕ) (hfree : ∀ e, s.addr e ≠ some a) :
      Step config s (.record a)
        { s with
          allocated := s.allocated + 1
          addr := update s.addr s.allocated (some a)
          pendingTraceColls_ := s.pendingTraceColls_ ++ [s.allocated] }
  | elapse (d : ℕ) : Step config s (.elapse d) { s with now := s.now + d }
  | take (e : ℕ) (rest : List ℕ) (p : TracePhase) (hqueue : s.pendingTraceColls_ = e :: rest)
      (hnext : s.phase.next (.take e) = some p) :
      Step config s (.thread (.take e)) { s with phase := p, pendingTraceColls_ := rest }
  | callback (a : TraceAction) (p : TracePhase)
      (ha : a = .afterCollKernelStart ∨ a = .afterCollKernelEnd ∨ a = .cancelled)
      (hnext : s.phase.next a = some p) : Step config s (.thread a) (s.goOn p)
  | poll (r : WaitResult) (p : TracePhase) (e a : ℕ) (ifError : Bool)
      (he : s.phase.polled = some e) (ha : s.addr e = some a)
      (hnext : s.phase.next (.poll r) = some p) :
      Step config s (.poll r e ifError) ((s.progress config e a ifError).goOn p)

structure Transition where
  before : Watched
  op : Op
  after : Watched

inductive Run (config : WatchdogPluginConfig) : List Transition → Watched → Prop
  | nil : Run config [] init
  | snoc {past : List Transition} {s s' : Watched} {op : Op} (h : Run config past s)
      (hstep : s.Step config op s') : Run config (past ++ [⟨s, op, s'⟩]) s'

/-- `funcTriggerOnTimeout` is called in this transition for `e`. -/
def Transition.Triggers (config : WatchdogPluginConfig) (τ : Transition) (e : ℕ) : Prop :=
  ∃ r ifError a, τ.op = .poll r e ifError ∧ τ.before.addr e = some a ∧
    .funcTriggerOnTimeout ∈
      (collEventProgressing config τ.before.plugin a τ.before.now ifError).1

/-- A timeout is reported only when it has passed since the first call for that event. -/
def Transition.Justified (config : WatchdogPluginConfig) (τ : Transition) : Prop :=
  ∀ e, τ.Triggers config e →
    ∃ t, τ.after.first e = some t ∧ t + config.timeout ≤ τ.before.now

/-- The event was still progressing at the time `t`: it has been polled since, or the thread is in
a wait for it that has not taken longer than its interval. -/
def ProgressingAt (s : Watched) (interval e t : ℕ) : Prop :=
  ∃ t', s.last e = some t' ∧
    (t ≤ t' ∨ s.phase.polled = some e ∧ t ≤ s.now ∧ s.now ≤ t' + interval)

/-- An event that progresses for longer than the timeout and an interval is reported. -/
def Vigilant (config : WatchdogPluginConfig) (interval : ℕ) (s : Watched) : Prop :=
  config.checkTimeout = true → ∀ e t t', s.first e = some t → s.ProgressingAt interval e t' →
    t + config.timeout + interval < t' → s.timedOut e = true

/-- An event whose first call finds its own address in `lastEvent_` is not polled once the timeout
has passed since the checkpoint found there, until it has passed since the first call. -/
def Transition.Undisturbed (config : WatchdogPluginConfig) (τ : Transition) : Prop :=
  config.checkTimeout = true → ∀ r e ifError c t, τ.op = .poll r e ifError →
    τ.after.inherited e = some c → τ.after.first e = some t →
      ¬(c + config.timeout ≤ τ.before.now ∧ τ.before.now < t + config.timeout)

variable {config : WatchdogPluginConfig} {s s' : Watched} {op : Op} {e a : ℕ}

/-! ## The history of the current event -/

@[simp] theorem goOn_phase (s : Watched) (p : TracePhase) : (s.goOn p).phase = p := rfl
variable {p : TracePhase} {τ : Transition} {e' : ℕ}

theorem goOn_addr (h : p.event = some e) : (s.goOn p).addr = s.addr := by
  unfold goOn
  rw [h]
  cases s.phase.event <;> rfl

theorem progress_first (config : WatchdogPluginConfig) (s : Watched) (e a : ℕ) (ifError : Bool) :
    (s.progress config e a ifError).first e = some ((s.first e).getD s.now) := by
  unfold progress
  cases h : s.first e <;> simp [h]

theorem progress_first_of_ne (he : e' ≠ e) (ifError : Bool) :
    (s.progress config e a ifError).first e' = s.first e' := by
  unfold progress
  cases h : s.first e <;> simp [he]

theorem progress_inherited_of_ne (he : e' ≠ e) (ifError : Bool) :
    (s.progress config e a ifError).inherited e' = s.inherited e' := by
  unfold progress
  dsimp only
  split
  · exact update_of_ne he _ _
  · rfl

theorem progress_timedOut {ifError : Bool} (h : s.timedOut e' = true) :
    (s.progress config e a ifError).timedOut e' = true := by
  unfold progress
  dsimp only
  split
  · by_cases he : e' = e
    · simp [he]
    · simpa [he] using h
  · exact h

/-- While an event progresses the plugin times it, from its first call or from the checkpoint that
this call found. -/
structure Inv (config : WatchdogPluginConfig) (s : Watched) : Prop where
  nodup : s.pendingTraceColls_.Nodup
  queued : ∀ e ∈ s.pendingTraceColls_, e < s.allocated ∧ s.first e = none ∧ s.phase.event ≠ some e
  held : ∀ e, s.phase.event = some e → e < s.allocated
  timed : config.checkTimeout = true → ∀ e t a, s.phase.event = some e → s.first e = some t →
    s.addr e = some a → s.plugin.lastEvent_ = some a ∧
      s.plugin.timer_ = (s.inherited e).getD t
  timer_le : s.plugin.timer_ ≤ s.now
  first_le : ∀ e t, s.first e = some t → e < s.allocated ∧ t ≤ s.now
  inherited_le : ∀ e c, s.inherited e = some c → ∃ t, s.first e = some t ∧ c ≤ t
  reported : config.checkTimeout = true → ∀ e t t', s.first e = some t → s.last e = some t' →
    t < t' → t + config.timeout ≤ t' → s.timedOut e = true

theorem inv_init : init.Inv config := by
  constructor <;> simp [init, TracePhase.event]

section

variable (h : s.Inv config)
include h

theorem Inv.record :
    { s with
      allocated := s.allocated + 1
      addr := update s.addr s.allocated (some a)
      pendingTraceColls_ := s.pendingTraceColls_ ++ [s.allocated] }.Inv config where
  nodup := by
    refine List.nodup_append.2 ⟨h.nodup, List.nodup_singleton _, ?_⟩
    rintro e he e' he' rfl
    have := (h.queued e he).1
    simp only [List.mem_singleton] at he'
    omega
  queued := by
    intro e he
    rcases List.mem_append.1 he with he | he
    · obtain ⟨hlt, hrest⟩ := h.queued e he
      exact ⟨Nat.lt_succ_of_lt hlt, hrest⟩
    · rw [List.mem_singleton] at he
      subst he
      refine ⟨Nat.lt_succ_self _, ?_, ?_⟩
      · by_contra hne
        obtain ⟨t, ht⟩ := Option.ne_none_iff_exists'.1 hne
        exact absurd (h.first_le _ t ht).1 (Nat.lt_irrefl _)
      · intro he
        exact absurd (h.held _ he) (Nat.lt_irrefl _)
  held := fun e he => Nat.lt_succ_of_lt (h.held e he)
  timed := by
    intro hcheck e t a' he ht ha'
    have hne : e ≠ s.allocated := Nat.ne_of_lt (h.held e he)
    exact h.timed hcheck e t a' he ht (by simpa only [update_of_ne hne] using ha')
  __ := h
  first_le := fun e t ht => ⟨Nat.lt_succ_of_lt (h.first_le e t ht).1, (h.first_le e t ht).2⟩

theorem Inv.elapse (d : ℕ) : { s with now := s.now + d }.Inv config :=
  { h with
    timer_le := Nat.le_add_right_of_le h.timer_le
    first_le := fun e t ht => ⟨(h.first_le e t ht).1, Nat.le_add_right_of_le (h.first_le e t ht).2⟩ }

theorem Inv.take {rest : List ℕ}
    (hqueue : s.pendingTraceColls_ = e :: rest) (hnext : s.phase.next (.take e) = some p) :
    { s with phase := p, pendingTraceColls_ := rest }.Inv config := by
  obtain ⟨-, rfl⟩ := TracePhase.next_take hnext
  have hnodup : e ∉ rest ∧ rest.Nodup := List.nodup_cons.1 (hqueue ▸ h.nodup)
  obtain ⟨hlt, hfirst, -⟩ := h.queued e (by simp [hqueue])
  refine { h with nodup := hnodup.2, queued := ?_, held := ?_, timed := ?_ }
  · intro e' he'
    obtain ⟨hlt', hfirst', -⟩ := h.queued e' (by simp [hqueue, he'])
    refine ⟨hlt', hfirst', ?_⟩
    intro heq
    rw [TracePhase.event, Option.some.injEq] at heq
    exact hnodup.1 (heq ▸ he')
  · intro e' he'
    rw [TracePhase.event, Option.some.injEq] at he'
    exact he' ▸ hlt
  · intro _ e' t a he' ht
    rw [TracePhase.event, Option.some.injEq] at he'
    subst he'
    rw [hfirst] at ht
    cases ht

theorem Inv.goOn
    (hp : ∀ e, p.event = some e → s.phase.event = some e) : (s.goOn p).Inv config where
  __ := h
  queued := by
    intro e he
    obtain ⟨hlt, hfirst, hne⟩ := h.queued e he
    exact ⟨hlt, hfirst, fun hpe => hne (hp e hpe)⟩
  held := fun e he => h.held e (hp e he)
  timed := by
    intro hcheck e t a he ht ha
    rw [goOn_phase] at he
    rw [goOn_addr he] at ha
    exact h.timed hcheck e t a (hp e he) ht ha

theorem Inv.progress_timed (hcheck : config.checkTimeout = true)
    (he : s.phase.event = some e) (ha : s.addr e = some a) (ifError : Bool) :
    (s.progress config e a ifError).plugin.lastEvent_ = some a ∧
      (s.progress config e a ifError).plugin.timer_ =
        ((s.progress config e a ifError).inherited e).getD ((s.first e).getD s.now) := by
  change (collEventProgressing config s.plugin a s.now ifError).2.lastEvent_ = some a ∧
    (collEventProgressing config s.plugin a s.now ifError).2.timer_ = _
  cases hfirst : s.first e with
  | some t =>
    obtain ⟨hlast, htimer⟩ := h.timed hcheck e t a he hfirst ha
    rw [progressing_same hlast]
    refine ⟨hlast, ?_⟩
    simpa [progress, hfirst] using htimer
  | none =>
    by_cases hlast : s.plugin.lastEvent_ = some a
    · rw [progressing_same hlast]
      exact ⟨hlast, by simp [progress, hfirst, hlast]⟩
    · rw [progressing_other hcheck hlast]
      have hnone : s.inherited e = none := by
        by_contra hne
        obtain ⟨c, hc⟩ := Option.ne_none_iff_exists'.1 hne
        obtain ⟨t, ht, -⟩ := h.inherited_le e c hc
        rw [hfirst] at ht
        cases ht
      exact ⟨rfl, by simp [progress, hlast, hnone]⟩

theorem Inv.progress (he : s.phase.polled = some e) (ha : s.addr e = some a)
    (ifError : Bool) : (s.progress config e a ifError).Inv config := by
  have hcur : s.phase.event = some e := TracePhase.event_of_polled he
  have hfirst := s.progress_first config e a ifError
  have hle : (s.first e).getD s.now ≤ s.now := by
    cases hf : s.first e with
    | none => exact Nat.le_refl _
    | some t => exact (h.first_le e t hf).2
  refine ⟨h.nodup, ?_, h.held, ?_, ?_, ?_, ?_, ?_⟩
  · intro e' he'
    obtain ⟨hlt, hnone, hne⟩ := h.queued e' he'
    have hother : e' ≠ e := fun heq => hne (heq ▸ hcur)
    exact ⟨hlt, by rw [progress_first_of_ne hother]; exact hnone, hne⟩
  · intro hcheck e' t a' he' ht ha'
    have heq : e' = e := by
      change s.phase.event = some e' at he'
      rw [hcur] at he'
      exact (Option.some.inj he').symm
    subst heq
    change s.addr e' = some a' at ha'
    have haa : a = a' := Option.some.inj (ha.symm.trans ha')
    subst haa
    rw [hfirst] at ht
    rw [← Option.some.inj ht]
    exact h.progress_timed hcheck hcur ha ifError
  · change (collEventProgressing config s.plugin a s.now ifError).2.timer_ ≤ s.now
    unfold collEventProgressing
    split_ifs
    · exact h.timer_le
    · exact Nat.le_refl _
    · exact h.timer_le
    · exact h.timer_le
  · intro e' t ht
    by_cases heq : e' = e
    · subst heq
      rw [hfirst] at ht
      exact ⟨h.held _ hcur, Option.some.inj ht ▸ hle⟩
    · rw [progress_first_of_ne heq] at ht
      exact h.first_le e' t ht
  · intro e' c hc
    by_cases heq : e' = e
    · subst heq
      refine ⟨_, hfirst, ?_⟩
      by_cases hnew : (s.first e').isNone ∧ s.plugin.lastEvent_ = some a
      · have hnone : s.first e' = none := Option.isNone_iff_eq_none.1 hnew.1
        simp only [Watched.progress, if_pos hnew, update_self, Option.some.injEq] at hc
        rw [hnone, ← hc]
        exact h.timer_le
      · simp only [Watched.progress, if_neg hnew] at hc
        obtain ⟨t, ht, hct⟩ := h.inherited_le e' c hc
        rw [ht]
        exact hct
    · rw [progress_inherited_of_ne heq] at hc
      obtain ⟨t, ht, hct⟩ := h.inherited_le e' c hc
      exact ⟨t, by rw [progress_first_of_ne heq]; exact ht, hct⟩
  · intro hcheck e' t t' ht ht' hlt hle'
    by_cases heq : e' = e
    · subst heq
      have hnow : t' = s.now := by
        simpa [Watched.progress] using ht'.symm
      subst hnow
      rw [hfirst] at ht
      -- a first call would be at the time `t`
      cases hf : s.first e' with
      | none =>
        rw [hf] at ht
        exact absurd (Option.some.inj ht) (Nat.ne_of_gt hlt)
      | some t₀ =>
        rw [hf] at ht
        have htt : t₀ = t := Option.some.inj ht
        subst htt
        obtain ⟨hlast, htimer⟩ := h.timed hcheck e' t₀ a hcur hf ha
        have hearly : s.plugin.timer_ ≤ t₀ := by
          rw [htimer]
          cases hi : s.inherited e' with
          | none => exact Nat.le_refl _
          | some c =>
            obtain ⟨t, ht, hct⟩ := h.inherited_le e' c hi
            rw [hf] at ht
            exact Option.some.inj ht ▸ hct
        have hmem : .funcTriggerOnTimeout ∈
            (collEventProgressing config s.plugin a s.now ifError).1 :=
          timeout_mem.2 ⟨hcheck, hlast, by omega⟩
        simp [Watched.progress, hmem]
    · rw [progress_first_of_ne heq] at ht
      have hl : s.last e' = some t' := by
        simpa [Watched.progress, heq] using ht'
      exact progress_timedOut (h.reported hcheck e' t t' ht hl hlt hle')

end

theorem Step.inv (hstep : s.Step config op s') (h : s.Inv config) : s'.Inv config := by
  cases hstep with
  | record a hfree => exact h.record
  | elapse d => exact h.elapse d
  | take e rest p hqueue hnext => exact h.take hqueue hnext
  | callback a p ha hnext =>
    apply h.goOn
    intro e he
    apply TracePhase.event_next hnext _ he
    rintro e' rfl
    simp at ha
  | poll r p e a ifError he ha hnext =>
    apply (h.progress he ha ifError).goOn
    intro e' he'
    exact TracePhase.event_next hnext (by simp) he'

variable {past : List Transition}

theorem Run.inv (h : Run config past s) : s.Inv config := by
  induction h with
  | nil => exact inv_init
  | snoc _ hstep ih => exact hstep.inv ih

theorem Run.transitions (h : Run config past s) :
    ∀ τ ∈ past, τ.before.Inv config ∧ τ.before.Step config τ.op τ.after ∧ τ.after.Inv config := by
  induction h with
  | nil => simp
  | snoc hpast hstep ih =>
    intro τ hτ
    rcases List.mem_append.1 hτ with hτ | hτ
    · exact ih τ hτ
    · rw [List.mem_singleton] at hτ
      subst hτ
      exact ⟨hpast.inv, hstep, hstep.inv hpast.inv⟩

/-! ## When reports are justified -/

theorem Inv.vigilant (h : s.Inv config) (interval : ℕ) : s.Vigilant config interval := by
  rintro hcheck e t t' hfirst ⟨t₁, hlast, hlate⟩ hlong
  have hle : t + config.timeout < t₁ := by
    rcases hlate with hle | ⟨-, hnow, hwait⟩ <;> omega
  exact h.reported hcheck e t t₁ hfirst hlast (by omega) (Nat.le_of_lt hle)

/-- A report compares the time with the checkpoint that the event inherited, or with its first
call. -/
theorem Inv.triggers_iff (h : s.Inv config) (he : s.phase.polled = some e) (ha : s.addr e = some a)
    (hcheck : config.checkTimeout = true) (ifError : Bool) {c : ℕ}
    (hc : (s.progress config e a ifError).inherited e = some c) :
    .funcTriggerOnTimeout ∈ (collEventProgressing config s.plugin a s.now ifError).1 ↔
      c + config.timeout ≤ s.now := by
  have hcur : s.phase.event = some e := TracePhase.event_of_polled he
  rw [timeout_mem]
  have hold : s.plugin.lastEvent_ = some a ∧ s.plugin.timer_ = c := by
    cases hf : s.first e with
    | some t =>
      have hi : s.inherited e = some c := by simpa [Watched.progress, hf] using hc
      obtain ⟨hlast, htimer⟩ := h.timed hcheck e t a hcur hf ha
      exact ⟨hlast, by simpa [hi] using htimer⟩
    | none =>
      have hnone : s.inherited e = none := by
        by_contra hne
        obtain ⟨c, hc⟩ := Option.ne_none_iff_exists'.1 hne
        obtain ⟨t, ht, -⟩ := h.inherited_le e c hc
        rw [hf] at ht
        cases ht
      by_cases hlast : s.plugin.lastEvent_ = some a
      · exact ⟨hlast, by simpa [Watched.progress, hf, hlast] using hc⟩
      · simp [Watched.progress, hf, hlast, hnone] at hc
  rw [hold.2]
  exact ⟨fun htrig => htrig.2.2, fun hle => ⟨hcheck, hold.1, hle⟩⟩

theorem Inv.triggers_own (h : s.Inv config) (he : s.phase.polled = some e) (ha : s.addr e = some a)
    {ifError : Bool} (hnone : (s.progress config e a ifError).inherited e = none)
    (htrig : .funcTriggerOnTimeout ∈ (collEventProgressing config s.plugin a s.now ifError).1) :
    (s.first e).getD s.now + config.timeout ≤ s.now := by
  have hcur : s.phase.event = some e := TracePhase.event_of_polled he
  obtain ⟨hcheck, hlast, hle⟩ := timeout_mem.1 htrig
  cases hf : s.first e with
  | none => simp [Watched.progress, hf, hlast] at hnone
  | some t =>
    have hi : s.inherited e = none := by simpa [Watched.progress, hf] using hnone
    have htimer := (h.timed hcheck e t a hcur hf ha).2
    rw [hi, Option.getD_none] at htimer
    simpa [htimer] using hle

theorem Transition.justified_of_not_poll
    (hop : ∀ r e ifError, τ.op ≠ .poll r e ifError) : τ.Justified config := by
  rintro e ⟨r, ifError, _, heq, _⟩
  exact absurd heq (hop r e ifError)

theorem Transition.undisturbed_of_not_poll
    (hop : ∀ r e ifError, τ.op ≠ .poll r e ifError) : τ.Undisturbed config := by
  intro _ r e ifError _ _ heq
  exact absurd heq (hop r e ifError)

theorem Transition.justified_iff_undisturbed (hinv : τ.before.Inv config)
    (hstep : τ.before.Step config τ.op τ.after) : τ.Justified config ↔ τ.Undisturbed config := by
  obtain ⟨s, op, s'⟩ := τ
  change s.Inv config at hinv
  change s.Step config op s' at hstep
  cases hstep with
  | poll r p e a ifError he ha hnext =>
    have hfirst := s.progress_first config e a ifError
    constructor
    · intro hjust hcheck r' e' ifError' c t hop hc ht ⟨hpassed, hearly⟩
      cases hop
      obtain ⟨t', ht', hle⟩ := hjust e ⟨r, ifError, a, rfl, ha,
        (hinv.triggers_iff he ha hcheck ifError hc).2 hpassed⟩
      have htt : t' = t := Option.some.inj (ht'.symm.trans ht)
      subst htt
      exact absurd hearly (Nat.not_lt.2 hle)
    · rintro hund e' ⟨r', ifError', a', hop, ha', htrig⟩
      cases hop
      have haa : a = a' := Option.some.inj (ha.symm.trans ha')
      subst haa
      refine ⟨_, hfirst, ?_⟩
      cases hc : (s.progress config e a ifError).inherited e with
      | none => exact hinv.triggers_own he ha hc htrig
      | some c =>
        have hcheck : config.checkTimeout = true := (timeout_mem.1 htrig).1
        by_contra hlt
        exact hund hcheck r e ifError c _ rfl hc hfirst
          ⟨(hinv.triggers_iff he ha hcheck ifError hc).1 htrig, Nat.not_le.1 hlt⟩
  | record a hfree => exact iff_of_true (justified_of_not_poll nofun) (undisturbed_of_not_poll nofun)
  | elapse d => exact iff_of_true (justified_of_not_poll nofun) (undisturbed_of_not_poll nofun)
  | take e rest p hqueue hnext => exact iff_of_true (justified_of_not_poll nofun) (undisturbed_of_not_poll nofun)
  | callback a p ha hnext => exact iff_of_true (justified_of_not_poll nofun) (undisturbed_of_not_poll nofun)

/-- The watchdog reports an event only when it has run past the timeout, and reports each that has,
exactly in the runs in which no event is polled too early for a checkpoint that it inherited. -/
theorem reports_iff {past : List Transition} (h : Run config past s) (interval : ℕ) :
    ((∀ τ ∈ past, τ.Justified config) ∧ s.Vigilant config interval ∧
      ∀ τ ∈ past, τ.before.Vigilant config interval) ↔
    ∀ τ ∈ past, τ.Undisturbed config := by
  have hall := h.transitions
  constructor
  · rintro ⟨hjust, -⟩ τ hτ
    obtain ⟨hinv, hstep, -⟩ := hall τ hτ
    exact (Transition.justified_iff_undisturbed hinv hstep).1 (hjust τ hτ)
  · intro hund
    refine ⟨?_, h.inv.vigilant interval, fun τ hτ => (hall τ hτ).1.vigilant interval⟩
    intro τ hτ
    obtain ⟨hinv, hstep, -⟩ := hall τ hτ
    exact (Transition.justified_iff_undisturbed hinv hstep).2 (hund τ hτ)

def configTen : WatchdogPluginConfig := ⟨true, true, 10⟩

/-- An event that is polled at 1 and at 12, and reported then. -/
theorem reports_ten : ∃ past s, Run configTen past s ∧ s.timedOut 0 = true ∧
    (∀ τ ∈ past, τ.Justified configTen) ∧ s.Vigilant configTen 11 := by
  have h1 : Run configTen _ _ := Run.nil.snoc (.record 64 (by simp [init]))
  have h2 := h1.snoc (.take 0 [] _ rfl rfl)
  have h3 := h2.snoc (.elapse 1)
  have h4 := h3.snoc (.poll .notYet _ 0 64 false rfl rfl rfl)
  have h5 := h4.snoc (.elapse 11)
  have h6 := h5.snoc (.poll .reached _ 0 64 false rfl rfl rfl)
  have hreports := (reports_iff h6 11).2 ?_
  · exact ⟨_, _, h6, rfl, hreports.1, hreports.2.1⟩
  · simp only [List.nil_append, List.cons_append, List.forall_mem_cons]
    refine ⟨Transition.undisturbed_of_not_poll nofun, Transition.undisturbed_of_not_poll nofun,
      Transition.undisturbed_of_not_poll nofun, ?_, Transition.undisturbed_of_not_poll nofun, ?_,
      by simp⟩
    · rintro - r e ifError c t hop hc
      cases hop
      exact nomatch (show none = some c from hc)
    · rintro - r e ifError c t hop hc
      cases hop
      exact nomatch (show none = some c from hc)

/-- An event ends soon, the thread is idle for longer than the timeout, and the next event gets the
address of the first: its first call reports a timeout. -/
theorem false_alarm_ten : ¬∀ past s, Run configTen past s → ∀ τ ∈ past, τ.Justified configTen := by
  intro hall
  have h1 : Run configTen _ _ := Run.nil.snoc (.record 64 (by simp [init]))
  have h2 := h1.snoc (.take 0 [] _ rfl rfl)
  have h3 := h2.snoc (.poll .reached _ 0 64 false rfl rfl rfl)
  have h4 := h3.snoc (.callback .afterCollKernelStart _ (.inl rfl) rfl)
  have h5 := h4.snoc (.poll .reached _ 0 64 false rfl rfl rfl)
  have h6 := h5.snoc (.callback .afterCollKernelEnd _ (.inr (.inl rfl)) rfl)
  have h7 := h6.snoc (.elapse 20)
  have h8 := h7.snoc (.record 64 (by
    intro e
    by_cases he : e = 0 <;> simp [init, goOn, progress, TracePhase.event, he]))
  have h9 := h8.snoc (.take 1 [] _ rfl rfl)
  have h10 := h9.snoc (.poll .notYet _ 1 64 false rfl rfl rfl)
  obtain ⟨t, ht, hle⟩ := hall _ _ h10 _ (List.mem_append_right _ (List.mem_singleton.2 rfl)) 1
    ⟨.notYet, false, 64, rfl, rfl, by decide⟩
  have hfirst : t = 20 := Option.some.inj (ht.symm.trans rfl)
  subst hfirst
  exact absurd hle (by decide)

end Watched

end TorchComms.CollTrace
