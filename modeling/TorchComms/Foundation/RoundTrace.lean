import TorchComms.Foundation.OwnedCells

/-! # Rounds of tasks

In each round tasks load cells of some arrays and store one value each into one array. The tasks
belong to threads and these to blocks. A thread does its tasks of a round turn by turn, and a block
its rounds one after the other, but nothing orders the blocks.
-/
namespace TorchComms.Foundation
open Function

variable {V β α θ ω τ : Type*}

inductive RoundEvent (V : Type*)
  | load (r : ℕ) (v : V) (j : ℕ)
  | store (r : ℕ) (v : V)
  deriving DecidableEq

namespace RoundEvent

def round : RoundEvent V → ℕ
  | .load r _ _ => r
  | .store r _ => r

def task : RoundEvent V → V
  | .load _ v _ => v
  | .store _ v => v

def stores : RoundEvent V → Bool
  | .load _ _ _ => false
  | .store _ _ => true

variable {r j : ℕ} {v : V}

@[simp] theorem round_load : (RoundEvent.load r v j).round = r := rfl

@[simp] theorem round_store : (RoundEvent.store r v).round = r := rfl

@[simp] theorem task_load : (RoundEvent.load r v j).task = v := rfl

@[simp] theorem task_store : (RoundEvent.store r v).task = v := rfl

@[simp] theorem stores_load : (RoundEvent.load r v j).stores = false := rfl

@[simp] theorem stores_store : (RoundEvent.store r v).stores = true := rfl

end RoundEvent

/-- The tasks of a round store into their first destination. -/
structure Rounds (V β α θ ω τ : Type*) where
  rounds : ℕ
  count : ℕ
  tasks : ℕ → Tasks V β α
  runs : ℕ → V → Prop
  thread : V → θ
  turn : V → τ
  block : θ → ω

namespace Rounds

variable (R : Rounds V β α θ ω τ)

/-- In each round every one of the first `count` cells has one task. -/
structure Exact : Prop where
  source : ∀ {r v}, r < R.rounds → R.runs r v → (R.tasks r).source v = (R.tasks r).target v
  target_lt : ∀ {r v}, r < R.rounds → R.runs r v → (R.tasks r).target v < R.count
  covered : ∀ {r x}, r < R.rounds → x < R.count → ∃ v, R.runs r v ∧ (R.tasks r).target v = x
  alone : ∀ {r v v'}, r < R.rounds → R.runs r v → R.runs r v' →
    (R.tasks r).target v = (R.tasks r).target v' → v = v'

def Valid : RoundEvent V → Prop
  | .load r v j => r < R.rounds ∧ R.runs r v ∧ j < (R.tasks r).numSrcs
  | .store r v => r < R.rounds ∧ R.runs r v

def blockOf (v : V) : ω := R.block (R.thread v)

/-- What threads and blocks keep in order. -/
inductive Before [LT τ] : RoundEvent V → RoundEvent V → Prop
  | task (r v j) : Before (.load r v j) (.store r v)
  | turn {e e'} : e.round = e'.round → R.thread e.task = R.thread e'.task →
    R.turn e.task < R.turn e'.task → Before e e'
  | round {e e'} : R.blockOf e.task = R.blockOf e'.task → e.round < e'.round → Before e e'

/-- All events once, in an order that threads and blocks allow. -/
structure Legal [LT τ] (trace : List (RoundEvent V)) : Prop where
  nodup : trace.Nodup
  mem_iff : ∀ e, e ∈ trace ↔ R.Valid e
  before : ∀ past e' rest, trace = past ++ e' :: rest → ∀ e, R.Valid e → R.Before e e' → e ∈ past

variable {R} {past rest trace : List (RoundEvent V)} {e e' : RoundEvent V} {r n x : ℕ} {v : V}

/-- The round has stored the cell. -/
def Stored (R : Rounds V β α θ ω τ) (past : List (RoundEvent V)) (x r : ℕ) : Prop :=
  ∃ v, .store r v ∈ past ∧ (R.tasks r).target v = x

theorem stored_append_load {r' j : ℕ} :
    R.Stored (past ++ [.load r' v j]) x r ↔ R.Stored past x r := by
  simp [Stored]

theorem stored_append_store {r' : ℕ} : R.Stored (past ++ [.store r' v]) x r ↔
    R.Stored past x r ∨ r = r' ∧ (R.tasks r').target v = x := by
  constructor
  · rintro ⟨v', hv, hx⟩
    rcases List.mem_append.mp hv with hv | hv
    · exact .inl ⟨v', hv, hx⟩
    · cases List.mem_singleton.mp hv
      exact .inr ⟨rfl, hx⟩
  · rintro (⟨v', hv, hx⟩ | ⟨rfl, hx⟩)
    · exact ⟨v', List.mem_append_left _ hv, hx⟩
    · exact ⟨v, List.mem_append_right _ (List.mem_singleton_self _), hx⟩

theorem Valid.runs (h : R.Valid e) : e.round < R.rounds ∧ R.runs e.round e.task := by
  cases e with
  | load r v j => exact ⟨h.1, h.2.1⟩
  | store r v => exact h

/-! ## What a trace says about an event -/

section Legal

variable [LT τ]

section

variable (h : R.Legal trace) (hsplit : trace = past ++ e :: rest)
include h hsplit

theorem Legal.valid : R.Valid e :=
  (h.mem_iff e).mp (hsplit ▸ List.mem_append_right _ List.mem_cons_self)

theorem Legal.valid_past
    (hmem : e' ∈ past) : R.Valid e' :=
  (h.mem_iff e').mp (hsplit ▸ List.mem_append_left _ hmem)

theorem Legal.not_mem_past : e ∉ past := by
  have hnodup := h.nodup
  rw [hsplit] at hnodup
  exact fun hmem => (List.nodup_append.mp hnodup).2.2 e hmem e List.mem_cons_self rfl

theorem Legal.not_after
    (hbefore : R.Before e e') : e' ∉ past := by
  intro hmem
  obtain ⟨p, q, rfl⟩ := List.append_of_mem hmem
  have hsplit' : trace = p ++ e' :: (q ++ e :: rest) := by
    rw [hsplit, List.append_assoc, List.cons_append]
  apply h.not_mem_past hsplit
  exact List.mem_append_left _ (h.before _ _ _ hsplit' e (h.valid hsplit) hbefore)

end

theorem Legal.loaded (h : R.Legal trace) (hsplit : trace = past ++ .store r v :: rest) :
    ∀ j < (R.tasks r).numSrcs, .load r v j ∈ past := by
  intro j hj
  obtain ⟨hr, hv⟩ := h.valid hsplit
  exact h.before _ _ _ hsplit _ ⟨hr, hv, hj⟩ (.task r v j)

/-- Where the earlier rounds have the same block at the cell, they have stored it. -/
theorem Legal.stored_of_lt (hR : R.Exact) (h : R.Legal trace)
    (hsplit : trace = past ++ e :: rest) (hlt : r < e.round)
    (hblock : ∀ v, R.runs r v → (R.tasks r).target v = (R.tasks e.round).target e.task →
      R.blockOf v = R.blockOf e.task) : R.Stored past ((R.tasks e.round).target e.task) r := by
  obtain ⟨hr, hv⟩ := (h.valid hsplit).runs
  obtain ⟨v, hv', hx⟩ := hR.covered (hlt.trans hr) (hR.target_lt hr hv)
  have hstore := h.before _ _ _ hsplit (.store r v) ⟨hlt.trans hr, hv'⟩
    (.round (hblock v hv' hx) hlt)
  exact ⟨v, hstore, hx⟩

/-- Where the later rounds have the same block at the cell, they have not. -/
theorem Legal.not_stored_of_le (hR : R.Exact) (h : R.Legal trace)
    (hsplit : trace = past ++ e :: rest) (hle : e.round ≤ r)
    (hblock : ∀ v, r < R.rounds → R.runs r v →
      (R.tasks r).target v = (R.tasks e.round).target e.task → R.blockOf e.task = R.blockOf v) :
    ¬ R.Stored past ((R.tasks e.round).target e.task) r := by
  rintro ⟨v, hmem, hx⟩
  have hvalid := h.valid_past hsplit hmem
  rcases Nat.lt_or_eq_of_le hle with hlt | rfl
  · have hbefore : R.Before e (.store r v) := .round (hblock v hvalid.1 hvalid.2 hx) hlt
    exact h.not_after hsplit hbefore hmem
  · have hvalid' := (h.valid hsplit).runs
    have heq := hR.alone hvalid'.1 hvalid.2 hvalid'.2 hx
    cases e with
    | load r v' j =>
      cases heq
      exact h.not_after hsplit (.task r _ j) hmem
    | store r v' =>
      cases heq
      exact h.not_mem_past hsplit hmem

end Legal

/-! ## Runs -/

variable [DecidableEq V] [DecidableEq β]

def step (R : Rounds V β α θ ω τ) (c : Cells (ℕ × V) β α) : RoundEvent V → Cells (ℕ × V) β α
  | .load r v j =>
    { c with regs := update c.regs (r, v) (update (c.regs (r, v)) j
        (c.mem ((R.tasks r).srcs j) ((R.tasks r).source v))) }
  | .store r v =>
    let s := (R.tasks r).value ((List.range (R.tasks r).numSrcs).map (c.regs (r, v)))
    let dst := (R.tasks r).dsts 0
    { c with mem := update c.mem dst (update (c.mem dst) ((R.tasks r).target v) s) }

def final (R : Rounds V β α θ ω τ) (c : Cells (ℕ × V) β α) (trace : List (RoundEvent V)) :
    Cells (ℕ × V) β α :=
  trace.foldl R.step c

/-- What the arrays hold at a cell after the first rounds, one after the other. -/
def after (R : Rounds V β α θ ω τ) (init : β → α) : ℕ → β → α
  | 0 => init
  | r + 1 => update (R.after init r) ((R.tasks r).dsts 0)
      ((R.tasks r).value
        ((List.range (R.tasks r).numSrcs).map fun j => R.after init r ((R.tasks r).srcs j)))

/-- What they hold when the rounds store given values. -/
def written (R : Rounds V β α θ ω τ) (w : ℕ → α) (init : β → α) : ℕ → β → α
  | 0 => init
  | r + 1 => update (R.written w init r) ((R.tasks r).dsts 0) (w r)

variable {c now : Cells (ℕ × V) β α}

omit [DecidableEq V] in
theorem written_eq_after {w : ℕ → α} {init : β → α} (h : ∀ r < n, w r = (R.tasks r).value
      ((List.range (R.tasks r).numSrcs).map fun j => R.after init r ((R.tasks r).srcs j))) :
    R.written w init n = R.after init n := by
  induction n with
  | zero => rfl
  | succ n ih =>
    rw [written, after, h n (Nat.lt_succ_self n), ih fun r hr => h r (Nat.lt_succ_of_lt hr)]

theorem step_mem_store (a : β) (x : ℕ) : (R.step now (.store r v)).mem a x =
    if x = (R.tasks r).target v then
      update (fun a => now.mem a x) ((R.tasks r).dsts 0)
        ((R.tasks r).value ((List.range (R.tasks r).numSrcs).map (now.regs (r, v)))) a
    else now.mem a x := by
  by_cases ha : a = (R.tasks r).dsts 0
  · subst ha
    by_cases hx : x = (R.tasks r).target v
    · subst hx
      simp [step]
    · simp [step, hx]
  · simp [step, ha]

theorem step_regs_load {r' j j' : ℕ} {v' : V} : (R.step now (.load r v j)).regs (r', v') j' =
    if r' = r ∧ v' = v ∧ j' = j then now.mem ((R.tasks r).srcs j) ((R.tasks r).source v)
    else now.regs (r', v') j' := by
  by_cases hv : r' = r ∧ v' = v
  · obtain ⟨rfl, rfl⟩ := hv
    by_cases hj : j' = j
    · subst hj
      simp [step]
    · simp [step, hj]
  · have hne : (r', v') ≠ (r, v) := fun heq => hv (Prod.mk.inj heq)
    rw [if_neg fun h => hv ⟨h.1, h.2.1⟩]
    simp [step, update_of_ne hne]

/-! ## One cell -/

/-- A cell whose rounds store in order: the loads of a round see the first `seen` rounds. -/
structure Midway (R : Rounds V β α θ ω τ) (x : ℕ) (seen : ℕ → ℕ) (w : ℕ → α) (init : β → α)
    (past : List (RoundEvent V)) (now : Cells (ℕ × V) β α) : Prop where
  regs : ∀ r v j, .load r v j ∈ past → (R.tasks r).source v = x →
    now.regs (r, v) j = R.written w init (seen r) ((R.tasks r).srcs j)
  mem : ∀ n, (∀ r, R.Stored past x r ↔ r < n) → ∀ a, now.mem a x = R.written w init n a

variable {seen : ℕ → ℕ} {w : ℕ → α} {init : β → α}

theorem Midway.load {j : ℕ} (h : R.Midway x seen w init past now)
    (hseen : (R.tasks r).source v = x → ∀ r', R.Stored past x r' ↔ r' < seen r) :
    R.Midway x seen w init (past ++ [.load r v j]) (R.step now (.load r v j)) := by
  constructor
  · intro r' v' j' hmem hx
    rw [step_regs_load]
    split
    · next heq =>
      obtain ⟨rfl, rfl, rfl⟩ := heq
      rw [hx]
      exact h.mem _ (hseen hx) _
    · next hne =>
      apply h.regs _ _ _ _ hx
      rcases List.mem_append.mp hmem with hmem | hmem
      · exact hmem
      · cases List.mem_singleton.mp hmem
        exact absurd ⟨rfl, rfl, rfl⟩ hne
  · intro n hn a
    simp only [stored_append_load] at hn
    exact h.mem n hn a

theorem Midway.store (h : R.Midway x seen w init past now)
    (hloaded : ∀ j < (R.tasks r).numSrcs, .load r v j ∈ past)
    (hsource : (R.tasks r).source v = (R.tasks r).target v)
    (hw : w r = (R.tasks r).value ((List.range (R.tasks r).numSrcs).map fun j =>
      R.written w init (seen r) ((R.tasks r).srcs j)))
    (hturn : (R.tasks r).target v = x → ∀ r', R.Stored past x r' ↔ r' < r) :
    R.Midway x seen w init (past ++ [.store r v]) (R.step now (.store r v)) := by
  constructor
  · intro r' v' j hmem hx
    exact h.regs r' v' j (by simpa using hmem) hx
  · intro n hn a
    rw [step_mem_store]
    split
    · next hx =>
      have hn' : n = r + 1 := by
        have hall : ∀ r', r' < n ↔ r' < r + 1 := by
          intro r'
          rw [← hn, stored_append_store, hturn hx.symm]
          constructor
          · rintro (hr' | ⟨rfl, -⟩) <;> omega
          · intro hr'
            rcases Nat.lt_succ_iff_lt_or_eq.mp hr' with hr' | rfl
            · exact .inl hr'
            · exact .inr ⟨rfl, hx.symm⟩
        apply Nat.le_antisymm
        · exact Nat.not_lt.mp fun hlt => Nat.lt_irrefl _ ((hall (r + 1)).mp hlt)
        · exact (hall r).mpr (Nat.lt_succ_self r)
      have hregs : (List.range (R.tasks r).numSrcs).map (now.regs (r, v)) =
          (List.range (R.tasks r).numSrcs).map fun j =>
            R.written w init (seen r) ((R.tasks r).srcs j) := by
        apply List.map_congr_left
        intro j hj
        exact h.regs r v j (hloaded j (List.mem_range.mp hj)) (hsource.trans hx.symm)
      have hmem : (fun a => now.mem a x) = R.written w init r :=
        funext (h.mem r (hturn hx.symm))
      rw [hn', hregs, ← hw, hmem, written]
    · next hx =>
      apply h.mem
      intro r'
      rw [← hn, stored_append_store]
      constructor
      · exact .inl
      · rintro (hs | ⟨-, hx'⟩)
        · exact hs
        · exact absurd hx'.symm hx

/-- The stores of a cell come in the order of the rounds, and a load finds those of the first `seen`
rounds. -/
structure InTurn (R : Rounds V β α θ ω τ) (x : ℕ) (seen : ℕ → ℕ) (trace : List (RoundEvent V)) :
    Prop where
  load : ∀ past r v j rest, trace = past ++ .load r v j :: rest → (R.tasks r).target v = x →
    ∀ r', R.Stored past x r' ↔ r' < seen r
  store : ∀ past r v rest, trace = past ++ .store r v :: rest → (R.tasks r).target v = x →
    ∀ r', R.Stored past x r' ↔ r' < r

theorem Legal.midway [LT τ] (hR : R.Exact) (h : R.Legal trace) (hturn : R.InTurn x seen trace)
    (hw : ∀ r < R.rounds, w r = (R.tasks r).value ((List.range (R.tasks r).numSrcs).map fun j =>
      R.written w (fun a => c.mem a x) (seen r) ((R.tasks r).srcs j))) :
    R.Midway x seen w (fun a => c.mem a x) trace (R.final c trace) := by
  suffices hall : ∀ past rest, trace = past ++ rest →
      R.Midway x seen w (fun a => c.mem a x) past (R.final c past) from
    hall trace [] (List.append_nil _).symm
  intro past
  induction past using List.reverseRecOn with
  | nil =>
    intro _ _
    constructor
    · intro r v j hmem
      cases hmem
    · intro n hn a
      cases n with
      | zero => rfl
      | succ n =>
        obtain ⟨v, hv, -⟩ := (hn 0).mpr (Nat.succ_pos n)
        cases hv
  | append_singleton past e ih =>
    intro rest heq
    rw [List.append_assoc, List.singleton_append] at heq
    have hnow := ih _ heq
    obtain ⟨hr, hv⟩ := (h.valid heq).runs
    rw [final, List.foldl_append]
    cases e with
    | load r v j =>
      exact hnow.load fun hx => hturn.load _ _ _ _ _ heq ((hR.source hr hv).symm.trans hx)
    | store r v =>
      exact hnow.store (h.loaded heq) (hR.source hr hv) (hw r hr) (hturn.store _ _ _ _ heq)

theorem Legal.final_mem [LT τ] (hR : R.Exact) (h : R.Legal trace) (hx : x < R.count)
    (hturn : R.InTurn x seen trace)
    (hw : ∀ r < R.rounds, w r = (R.tasks r).value ((List.range (R.tasks r).numSrcs).map fun j =>
      R.written w (fun a => c.mem a x) (seen r) ((R.tasks r).srcs j))) (a : β) :
    (R.final c trace).mem a x = R.written w (fun a => c.mem a x) R.rounds a := by
  apply (h.midway hR hturn hw).mem
  intro r
  constructor
  · rintro ⟨v, hv, -⟩
    exact ((h.mem_iff (.store r v)).mp hv).1
  · intro hr
    obtain ⟨v, hv, hvx⟩ := hR.covered hr hx
    exact ⟨v, (h.mem_iff _).mpr ⟨hr, hv⟩, hvx⟩

/-! ## Blocks that keep their cells -/

/-- A cell has the same block in all rounds. -/
def Agree (R : Rounds V β α θ ω τ) : Prop :=
  ∀ r r' v v', r < R.rounds → r' < R.rounds → R.runs r v → R.runs r' v' →
    (R.tasks r).target v = (R.tasks r').target v' → R.blockOf v = R.blockOf v'

omit [DecidableEq V] [DecidableEq β] in
theorem Legal.stored_iff [LT τ] (hR : R.Exact) (hagree : R.Agree) (h : R.Legal trace)
    (hsplit : trace = past ++ e :: rest) (r : ℕ) :
    R.Stored past ((R.tasks e.round).target e.task) r ↔ r < e.round := by
  obtain ⟨he, hruns⟩ := (h.valid hsplit).runs
  constructor
  · intro hs
    by_contra hge
    exact h.not_stored_of_le hR hsplit (Nat.le_of_not_lt hge)
      (fun v hr hv hx => hagree _ _ _ _ he hr hruns hv hx.symm) hs
  · intro hlt
    exact h.stored_of_lt hR hsplit hlt fun v hv hx =>
      hagree _ _ _ _ (hlt.trans he) he hv hruns hx

omit [DecidableEq V] [DecidableEq β] in
theorem Legal.inTurn [LT τ] (hR : R.Exact) (hagree : R.Agree) (h : R.Legal trace) :
    R.InTurn x id trace := by
  constructor
  · rintro past r v j rest hsplit rfl
    exact h.stored_iff hR hagree hsplit
  · rintro past r v rest hsplit rfl
    exact h.stored_iff hR hagree hsplit

/-- Such blocks do as if all rounds came one after the other. -/
theorem Legal.final_eq_after [LT τ] (hR : R.Exact) (hagree : R.Agree) (h : R.Legal trace)
    (hx : x < R.count) (a : β) :
    (R.final c trace).mem a x = R.after (fun a => c.mem a x) R.rounds a := by
  have hw := h.final_mem (c := c) hR hx (h.inTurn hR hagree) (w := fun r =>
    (R.tasks r).value ((List.range (R.tasks r).numSrcs).map fun j =>
      R.after (fun a => c.mem a x) r ((R.tasks r).srcs j)))
  rw [hw, written_eq_after fun _ _ => rfl]
  intro r _
  rw [id, written_eq_after fun _ _ => rfl]

end Rounds

end TorchComms.Foundation
