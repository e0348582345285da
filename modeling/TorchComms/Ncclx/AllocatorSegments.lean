import TorchComms.Ncclx.CachingAllocatorHook
import Mathlib.Data.List.Nodup

/-! # The segments of the attached communicators

The calls of an operation all go through where nothing fails, and together make the registrations
what they have to be. A call that goes through changes how many registrations its communicator has,
so an operation that throws behind its first call has changed something.
-/
namespace TorchComms.Ncclx.AllocatorHook

open Function

variable {h : Handles} {calls : List Call} {fails : ℕ → Bool} {i : ℕ} {s t : Hook}
  {mem m : List (ℕ × ℕ)} {comms : List ℕ} {op : Op} {a c : ℕ}

theorem contains_iff : contains m a = true ↔ a ∈ m.map (·.1) := by
  simp [contains, List.any_eq_true]

theorem contains_perm {m' : List (ℕ × ℕ)} (hperm : m.Perm m') : contains m a = contains m' a := by
  rw [Bool.eq_iff_iff, contains_iff, contains_iff]
  exact (hperm.map _).mem_iff

/-! ## Calls that go through -/

/-- NCCL is asked. -/
def Call.Asks (h : Handles) : Call → Prop
  | register_address comm addr _ => contains (h comm) addr = false
  | deregister_address comm addr => contains (h comm) addr = true

/-- What a call does when NCCL does not fail. -/
def Call.done (h : Handles) : Call → Handles
  | register_address comm addr len => update h comm (h comm ++ [(addr, len)])
  | deregister_address comm addr => update h comm (erase (h comm) addr)

/-- NCCL is asked in all the calls, when they all go through. -/
def AllAsk : List Call → Handles → Prop
  | [], _ => True
  | call :: calls, h => call.Asks h ∧ AllAsk calls (call.done h)

theorem Call.run_of_asks {call : Call} (hasks : call.Asks h) (fail : Bool) :
    call.run fail h = if fail then (h, true) else (call.done h, false) := by
  cases call <;> cases fail <;> simp_all [Call.run, Call.Asks, Call.done]

theorem runCalls_clean (hasks : AllAsk calls h)
    (hclean : ∀ j < calls.length, fails (i + j) = false) :
    runCalls fails i calls h = (calls.foldl Call.done h, false) := by
  induction calls generalizing h i with
  | nil => rfl
  | cons call calls ih =>
    have hfirst : fails i = false := hclean 0 (Nat.succ_pos _)
    rw [runCalls, call.run_of_asks hasks.1, hfirst]
    apply ih hasks.2
    intro j hj
    rw [Nat.add_assoc, Nat.add_comm 1]
    exact hclean (j + 1) (Nat.succ_lt_succ hj)

theorem runCalls_first (hasks : AllAsk calls h) (hne : calls ≠ []) (hfirst : fails i = true) :
    runCalls fails i calls h = (h, true) := by
  cases calls with
  | nil => exact absurd rfl hne
  | cons call calls =>
    rw [runCalls, call.run_of_asks hasks.1, hfirst]
    rfl

theorem runCalls_threw (hasks : AllAsk calls h) {j : ℕ} (hj : j < calls.length)
    (hfail : fails (i + j) = true) : (runCalls fails i calls h).2 = true := by
  induction calls generalizing h i j with
  | nil => cases hj
  | cons call calls ih =>
    rw [runCalls, call.run_of_asks hasks.1]
    cases hfirst : fails i with
    | true => rfl
    | false =>
      cases j with
      | zero => simp [hfirst] at hfail
      | succ j =>
        apply ih hasks.2 (Nat.lt_of_succ_lt_succ hj)
        rwa [Nat.add_assoc, Nat.add_comm 1]

/-! ## Calls that leave a trace -/

def Call.isRegister : Call → Bool
  | register_address _ _ _ => true
  | deregister_address _ _ => false

theorem erase_length (h : contains m a = true) : (erase m a).length < m.length := by
  rw [erase]
  apply List.length_filter_lt_length_iff_exists.mpr
  obtain ⟨e, he, heq⟩ := List.any_eq_true.mp h
  exact ⟨e, he, by simpa using heq⟩

theorem Call.run_length (call : Call) (fail : Bool) (h : Handles) (c : ℕ) :
    (call.isRegister = true → (h c).length ≤ ((call.run fail h).1 c).length) ∧
      (call.isRegister = false → ((call.run fail h).1 c).length ≤ (h c).length) := by
  cases call with
  | register_address comm addr len =>
    refine ⟨fun _ => ?_, fun hnot => absurd hnot.symm Bool.false_ne_true⟩
    by_cases hc : c = comm
    · subst hc
      simp only [Call.run]
      split
      · exact Nat.le_refl _
      · split <;> simp
    · simp only [Call.run]
      split
      · exact Nat.le_refl _
      · split <;> simp [hc]
  | deregister_address comm addr =>
    refine ⟨fun hnot => absurd hnot Bool.false_ne_true, fun _ => ?_⟩
    by_cases hc : c = comm
    · subst hc
      simp only [Call.run]
      split
      · exact Nat.le_refl _
      · split
        · exact Nat.le_refl _
        · simpa [erase] using List.length_filter_le _ _
    · simp only [Call.run]
      split
      · exact Nat.le_refl _
      · split <;> simp [hc]

theorem runCalls_length (calls : List Call) (fails : ℕ → Bool) (i : ℕ) (h : Handles) (c : ℕ) :
    ((∀ call ∈ calls, call.isRegister = true) →
        (h c).length ≤ ((runCalls fails i calls h).1 c).length) ∧
      ((∀ call ∈ calls, call.isRegister = false) →
        ((runCalls fails i calls h).1 c).length ≤ (h c).length) := by
  induction calls generalizing i h with
  | nil => exact ⟨fun _ => Nat.le_refl _, fun _ => Nat.le_refl _⟩
  | cons call calls ih =>
    have hrun := call.run_length (fails i) h c
    rw [runCalls]
    generalize call.run (fails i) h = r at hrun
    obtain ⟨h', threw⟩ := r
    cases threw with
    | true =>
      refine ⟨fun hall => hrun.1 (hall call List.mem_cons_self),
        fun hall => hrun.2 (hall call List.mem_cons_self)⟩
    | false =>
      refine ⟨fun hall => ?_, fun hall => ?_⟩
      · exact Nat.le_trans (hrun.1 (hall call List.mem_cons_self))
          ((ih (i + 1) h').1 fun call' hmem => hall call' (List.mem_cons_of_mem _ hmem))
      · exact Nat.le_trans ((ih (i + 1) h').2 fun call' hmem =>
          hall call' (List.mem_cons_of_mem _ hmem)) (hrun.2 (hall call List.mem_cons_self))

theorem runCalls_changed (hasks : AllAsk calls h) (hne : calls ≠ []) (hfirst : fails i = false)
    {kind : Bool} (hkind : ∀ call ∈ calls, call.isRegister = kind) :
    ∃ c, ((runCalls fails i calls h).1 c).length ≠ (h c).length := by
  cases calls with
  | nil => exact absurd rfl hne
  | cons call calls =>
    have hrest : ∀ call' ∈ calls, call'.isRegister = kind :=
      fun call' hmem => hkind call' (List.mem_cons_of_mem _ hmem)
    rw [runCalls, call.run_of_asks hasks.1, hfirst]
    have hcall := hkind call List.mem_cons_self
    obtain ⟨hasks_call, -⟩ := hasks
    cases call with
    | register_address comm addr len =>
      have hlength := (runCalls_length calls fails (i + 1)
        ((Call.register_address comm addr len).done h) comm).1 fun call' hmem =>
          (hrest call' hmem).trans hcall.symm
      have hdone : (((Call.register_address comm addr len).done h) comm).length =
          (h comm).length + 1 := by simp [Call.done]
      exact ⟨comm, by simp only [Bool.false_eq_true, if_false]; omega⟩
    | deregister_address comm addr =>
      have hlength := (runCalls_length calls fails (i + 1)
        ((Call.deregister_address comm addr).done h) comm).2 fun call' hmem =>
          (hrest call' hmem).trans hcall.symm
      have hdone : (((Call.deregister_address comm addr).done h) comm).length <
          (h comm).length := by simpa [Call.done] using erase_length hasks_call
      exact ⟨comm, by simp only [Bool.false_eq_true, if_false]; omega⟩

/-! ## What the loops do -/

theorem allAsk_append {calls' : List Call} :
    AllAsk (calls ++ calls') h ↔ AllAsk calls h ∧ AllAsk calls' (calls.foldl Call.done h) := by
  induction calls generalizing h with
  | nil => simp [AllAsk]
  | cons call calls ih => simp [AllAsk, ih, and_assoc]

theorem register_comms (a len : ℕ) (hcomms : comms.Nodup)
    (hnot : ∀ c ∈ comms, contains (h c) a = false) :
    AllAsk (comms.map fun c => .register_address c a len) h ∧
      ∀ c, (comms.map fun c => Call.register_address c a len).foldl Call.done h c =
        if c ∈ comms then h c ++ [(a, len)] else h c := by
  induction comms generalizing h with
  | nil => exact ⟨trivial, fun c => by simp⟩
  | cons c₀ comms ih =>
    rw [List.nodup_cons] at hcomms
    have hfirst := hnot c₀ List.mem_cons_self
    obtain ⟨hasks, hdone⟩ := ih (h := (Call.register_address c₀ a len).done h) hcomms.2 (by
      intro c hc
      have hne : c ≠ c₀ := fun heq => hcomms.1 (heq ▸ hc)
      simpa [Call.done, hne] using hnot c (List.mem_cons_of_mem _ hc))
    refine ⟨⟨hfirst, hasks⟩, fun c => ?_⟩
    rw [List.map_cons, List.foldl_cons, hdone]
    by_cases hc : c = c₀
    · subst hc
      simp [hcomms.1, Call.done]
    · simp [hc, Call.done]

theorem deregister_comms (a : ℕ) (hcomms : comms.Nodup)
    (hall : ∀ c ∈ comms, contains (h c) a = true) :
    AllAsk (comms.map fun c => .deregister_address c a) h ∧
      ∀ c, (comms.map fun c => Call.deregister_address c a).foldl Call.done h c =
        if c ∈ comms then erase (h c) a else h c := by
  induction comms generalizing h with
  | nil => exact ⟨trivial, fun c => by simp⟩
  | cons c₀ comms ih =>
    rw [List.nodup_cons] at hcomms
    have hfirst := hall c₀ List.mem_cons_self
    obtain ⟨hasks, hdone⟩ := ih (h := (Call.deregister_address c₀ a).done h) hcomms.2 (by
      intro c hc
      have hne : c ≠ c₀ := fun heq => hcomms.1 (heq ▸ hc)
      simpa [Call.done, hne] using hall c (List.mem_cons_of_mem _ hc))
    refine ⟨⟨hfirst, hasks⟩, fun c => ?_⟩
    rw [List.map_cons, List.foldl_cons, hdone]
    by_cases hc : c = c₀
    · subst hc
      simp [hcomms.1, Call.done]
    · simp [hc, Call.done]

theorem register_mem (c : ℕ) (hmem : (mem.map (·.1)).Nodup)
    (hnot : ∀ e ∈ mem, contains (h c) e.1 = false) :
    AllAsk (mem.map fun e => .register_address c e.1 e.2) h ∧
      (mem.map fun e => Call.register_address c e.1 e.2).foldl Call.done h =
        update h c (h c ++ mem) := by
  induction mem generalizing h with
  | nil => exact ⟨trivial, by simp⟩
  | cons e mem ih =>
    rw [List.map_cons, List.nodup_cons] at hmem
    have hfirst := hnot e List.mem_cons_self
    obtain ⟨hasks, hdone⟩ := ih (h := (Call.register_address c e.1 e.2).done h) hmem.2 (by
      intro e' he'
      have hne : e.1 ≠ e'.1 := fun heq => hmem.1 (heq ▸ List.mem_map_of_mem he')
      have hold := hnot e' (List.mem_cons_of_mem _ he')
      simp only [contains] at hold ⊢
      simp [Call.done, hold, hne])
    refine ⟨⟨hfirst, hasks⟩, ?_⟩
    rw [List.map_cons, List.foldl_cons, hdone]
    simp [Call.done]

theorem deregister_mem (c : ℕ) (hmem : (mem.map (·.1)).Nodup) (hperm : (h c).Perm mem) :
    AllAsk (mem.map fun e => .deregister_address c e.1) h ∧
      (mem.map fun e => Call.deregister_address c e.1).foldl Call.done h = update h c [] := by
  induction mem generalizing h with
  | nil => exact ⟨trivial, by simp [hperm.eq_nil]⟩
  | cons e mem ih =>
    rw [List.map_cons, List.nodup_cons] at hmem
    have hfirst : contains (h c) e.1 = true := by
      rw [contains_perm hperm]
      simp [contains]
    have hrest : (erase (h c) e.1).Perm mem := by
      have hfilter := hperm.filter fun e' => e'.1 ≠ e.1
      have hkeep : (mem.filter fun e' => e'.1 ≠ e.1) = mem :=
        List.filter_eq_self.mpr fun e' he' =>
          decide_eq_true fun heq => hmem.1 (heq ▸ List.mem_map_of_mem he')
      rw [List.filter_cons_of_neg (by simp), hkeep] at hfilter
      exact hfilter
    obtain ⟨hasks, hdone⟩ := ih (h := (Call.deregister_address c e.1).done h) hmem.2
      (by simpa [Call.done] using hrest)
    refine ⟨⟨hfirst, hasks⟩, ?_⟩
    rw [List.map_cons, List.foldl_cons, hdone]
    simp [Call.done]

theorem deregister_all (hmem : (mem.map (·.1)).Nodup) (hcomms : comms.Nodup)
    (hperm : ∀ c ∈ comms, (h c).Perm mem) :
    AllAsk (comms.flatMap fun c => mem.map fun e => .deregister_address c e.1) h ∧
      ∀ c, (comms.flatMap fun c => mem.map fun e => Call.deregister_address c e.1).foldl
        Call.done h c = if c ∈ comms then [] else h c := by
  induction comms generalizing h with
  | nil => exact ⟨trivial, fun c => by simp⟩
  | cons c₀ comms ih =>
    rw [List.nodup_cons] at hcomms
    obtain ⟨hasks₀, hdone₀⟩ := deregister_mem c₀ hmem (hperm c₀ List.mem_cons_self)
    obtain ⟨hasks, hdone⟩ := ih (h := update h c₀ []) hcomms.2 (by
      intro c hc
      have hne : c ≠ c₀ := fun heq => hcomms.1 (heq ▸ hc)
      simpa [hne] using hperm c (List.mem_cons_of_mem _ hc))
    rw [List.flatMap_cons, allAsk_append, hdone₀]
    refine ⟨⟨hasks₀, hasks⟩, fun c => ?_⟩
    rw [List.foldl_append, hdone₀, hdone]
    by_cases hc : c = c₀
    · subst hc
      simp
    · simp [hc]

/-! ## The operations -/

namespace Hook

/-- An operation is its calls. Only one that changes the map first leaves it changed. -/
structure Runs (s : Hook) (calls : List Call) (fails : ℕ → Bool) (op : Op) (r : Hook × Bool) :
    Prop where
  threw : r.2 = (runCalls fails 0 calls s.handles).2
  handles : r.1.handles = (runCalls fails 0 calls s.handles).1
  same : r.2 = true → op.isTrace = false →
    r.1.registeredMemMap = s.registeredMemMap ∧ r.1.registeredComms = s.registeredComms
  changed : r.2 = true → op.isTrace = true →
    r.1.registeredMemMap.length ≠ s.registeredMemMap.length

theorem Runs.stopped (hrun : runCalls fails 0 calls s.handles = (h, true))
    (hop : op.isTrace = false) : s.Runs calls fails op ({ s with handles := h }, true) where
  threw := by rw [hrun]
  handles := by rw [hrun]
  same := fun _ _ => ⟨rfl, rfl⟩
  changed := by
    intro _ hnot
    rw [hop] at hnot
    cases hnot

theorem Runs.returned {t : Hook} (hrun : runCalls fails 0 calls s.handles = (h, false))
    (ht : t.handles = h) : s.Runs calls fails op (t, false) where
  threw := by rw [hrun]
  handles := by rw [hrun, ht]
  same := by simp
  changed := by simp

theorem exec_cases (s : Hook) (mem : List (ℕ × ℕ)) (comms : List ℕ) (fails : ℕ → Bool) (op : Op) :
    s.exec mem comms fails op = (s, true) ∧ s.calls mem comms op = [] ∨
      s.Runs (s.calls mem comms op) fails op (s.exec mem comms fails op) := by
  cases op with
  | regDeregMem te =>
    cases haction : te.action with
    | SEGMENT_ALLOC =>
      cases hc : contains s.registeredMemMap te.addr with
      | true => exact .inl (by simp [exec, regDeregMem, calls, haction, hc])
      | false =>
        right
        simp only [exec, regDeregMem, calls, haction, hc, Bool.false_eq_true, if_false]
        exact ⟨rfl, rfl, fun _ hnot => absurd hnot.symm Bool.false_ne_true, fun _ _ => by simp⟩
    | SEGMENT_FREE =>
      cases hc : contains s.registeredMemMap te.addr with
      | true =>
        right
        simp only [exec, regDeregMem, calls, haction, hc, Bool.not_true, Bool.false_eq_true,
          if_false, if_true]
        exact ⟨rfl, rfl, fun _ hnot => absurd hnot.symm Bool.false_ne_true,
          fun _ _ => Nat.ne_of_lt (erase_length hc)⟩
      | false => exact .inl (by simp [exec, regDeregMem, calls, haction, hc])
    | other =>
      right
      simp only [exec, regDeregMem, calls, haction]
      exact .returned rfl rfl
  | registerComm c =>
    by_cases hc : c ∈ s.registeredComms
    · exact .inl (by simp [exec, registerComm, calls, hc])
    · right
      simp only [exec, registerComm, calls, hc, if_false]
      generalize hr : runCalls fails 0 _ s.handles = r
      obtain ⟨h, threw⟩ := r
      cases threw with
      | true => exact .stopped hr rfl
      | false => exact .returned hr rfl
  | deregisterComm c =>
    by_cases hc : c ∈ s.registeredComms
    · right
      simp only [exec, deregisterComm, calls, hc, not_true, if_false, if_true]
      generalize hr : runCalls fails 0 _ s.handles = r
      obtain ⟨h, threw⟩ := r
      cases threw with
      | true => exact .stopped hr rfl
      | false => exact .returned hr rfl
    · right
      rw [exec, deregisterComm, calls, if_pos hc, if_neg hc]
      exact .returned rfl rfl
  | clear =>
    right
    simp only [exec, clear, calls]
    generalize hr : runCalls fails 0 _ s.handles = r
    obtain ⟨h, threw⟩ := r
    cases threw with
    | true => exact .stopped hr rfl
    | false => exact .returned hr rfl

theorem calls_kind (s : Hook) (mem : List (ℕ × ℕ)) (comms : List ℕ) (op : Op) :
    ∃ kind, ∀ call ∈ s.calls mem comms op, call.isRegister = kind := by
  cases op with
  | regDeregMem te =>
    cases haction : te.action with
    | SEGMENT_ALLOC =>
      refine ⟨true, fun call hcall => ?_⟩
      simp only [calls, haction] at hcall
      split at hcall
      · cases hcall
      · obtain ⟨c, -, rfl⟩ := List.mem_map.mp hcall
        rfl
    | SEGMENT_FREE =>
      refine ⟨false, fun call hcall => ?_⟩
      simp only [calls, haction] at hcall
      split at hcall
      · obtain ⟨c, -, rfl⟩ := List.mem_map.mp hcall
        rfl
      · cases hcall
    | other => exact ⟨true, fun call hcall => by simp [calls, haction] at hcall⟩
  | registerComm c =>
    refine ⟨true, fun call hcall => ?_⟩
    simp only [calls] at hcall
    split at hcall
    · cases hcall
    · obtain ⟨e, -, rfl⟩ := List.mem_map.mp hcall
      rfl
  | deregisterComm c =>
    refine ⟨false, fun call hcall => ?_⟩
    simp only [calls] at hcall
    split at hcall
    · obtain ⟨e, -, rfl⟩ := List.mem_map.mp hcall
      rfl
    · cases hcall
  | clear =>
    refine ⟨false, fun call hcall => ?_⟩
    obtain ⟨c, -, hcall⟩ := List.mem_flatMap.mp hcall
    obtain ⟨e, -, rfl⟩ := List.mem_map.mp hcall
    rfl

/-! ## What the calls of an operation make of an attached state -/

section

variable (hs : s.Attached)
include hs

theorem nodup_perm (hmem : mem.Perm s.registeredMemMap) :
    (mem.map (·.1)).Nodup := (hmem.map _).nodup_iff.mpr hs.mem

section

variable (hcomms : comms.Perm s.registeredComms)
include hcomms

theorem Attached.contains_eq
    {b : Bool} (ha : contains s.registeredMemMap a = b) :
    ∀ c ∈ comms, contains (s.handles c) a = b := by
  intro c hc
  rw [contains_perm (hs.attached c (hcomms.subset hc)), ha]

theorem Attached.alloc (len : ℕ) (ha : contains s.registeredMemMap a = false) :
    AllAsk (comms.map fun c => .register_address c a len) s.handles ∧
      Attached ⟨(a, len) :: s.registeredMemMap, s.registeredComms,
        (comms.map fun c => Call.register_address c a len).foldl Call.done s.handles⟩ := by
  obtain ⟨hasks, hdone⟩ := register_comms a len (hcomms.nodup_iff.mpr hs.comms)
    (hs.contains_eq hcomms ha)
  refine ⟨hasks, ⟨?_, hs.comms, ?_, ?_⟩⟩
  · rw [List.map_cons, List.nodup_cons]
    refine ⟨fun hmem => ?_, hs.mem⟩
    rw [contains_iff.mpr hmem] at ha
    cases ha
  · intro c hc
    simp only
    rw [hdone, if_pos (hcomms.mem_iff.mpr hc)]
    exact List.perm_append_comm.trans ((hs.attached c hc).cons _)
  · intro c hc
    simp only
    rw [hdone, if_neg fun hmem => hc (hcomms.subset hmem)]
    exact hs.others c hc

theorem Attached.free
    (ha : contains s.registeredMemMap a = true) :
    AllAsk (comms.map fun c => .deregister_address c a) s.handles ∧
      Attached ⟨erase s.registeredMemMap a, s.registeredComms,
        (comms.map fun c => Call.deregister_address c a).foldl Call.done s.handles⟩ := by
  obtain ⟨hasks, hdone⟩ := deregister_comms a (hcomms.nodup_iff.mpr hs.comms)
    (hs.contains_eq hcomms ha)
  refine ⟨hasks, ⟨?_, hs.comms, ?_, ?_⟩⟩
  · exact hs.mem.sublist (List.filter_sublist.map _)
  · intro c hc
    simp only
    rw [hdone, if_pos (hcomms.mem_iff.mpr hc)]
    exact (hs.attached c hc).filter _
  · intro c hc
    simp only
    rw [hdone, if_neg fun hmem => hc (hcomms.subset hmem)]
    exact hs.others c hc

end

section

variable (hmem : mem.Perm s.registeredMemMap)
include hmem

theorem Attached.attach (hc : c ∉ s.registeredComms) :
    AllAsk (mem.map fun e => .register_address c e.1 e.2) s.handles ∧
      Attached ⟨s.registeredMemMap, c :: s.registeredComms,
        (mem.map fun e => Call.register_address c e.1 e.2).foldl Call.done s.handles⟩ := by
  have hnone := hs.others c hc
  obtain ⟨hasks, hdone⟩ := register_mem (h := s.handles) c (nodup_perm hs hmem)
    (by simp [hnone, contains])
  rw [hdone, hnone, List.nil_append]
  refine ⟨hasks, ⟨hs.mem, List.nodup_cons.mpr ⟨hc, hs.comms⟩, ?_, ?_⟩⟩
  · intro c' hc'
    by_cases heq : c' = c
    · subst heq
      simpa using hmem
    · simpa [heq] using hs.attached c' (List.mem_of_ne_of_mem heq hc')
  · intro c' hc'
    rw [List.mem_cons, not_or] at hc'
    simpa [hc'.1] using hs.others c' hc'.2

theorem Attached.detach (hc : c ∈ s.registeredComms) :
    AllAsk (mem.map fun e => .deregister_address c e.1) s.handles ∧
      Attached ⟨s.registeredMemMap, s.registeredComms.filter (· ≠ c),
        (mem.map fun e => Call.deregister_address c e.1).foldl Call.done s.handles⟩ := by
  obtain ⟨hasks, hdone⟩ := deregister_mem (h := s.handles) c (nodup_perm hs hmem)
    ((hs.attached c hc).trans hmem.symm)
  rw [hdone]
  refine ⟨hasks, ⟨hs.mem, hs.comms.filter _, ?_, ?_⟩⟩
  · intro c' hc'
    obtain ⟨hmem', hne⟩ := List.mem_filter.mp hc'
    simpa [of_decide_eq_true hne] using hs.attached c' hmem'
  · intro c' hc'
    by_cases heq : c' = c
    · subst heq
      simp
    · have hnot : c' ∉ s.registeredComms := fun hmem' =>
        hc' (List.mem_filter.mpr ⟨hmem', decide_eq_true heq⟩)
      simpa [heq] using hs.others c' hnot

section

variable (hcomms : comms.Perm s.registeredComms)
include hcomms

theorem Attached.cleared
    :
    AllAsk (comms.flatMap fun c => mem.map fun e => .deregister_address c e.1) s.handles ∧
      Attached ⟨[], [], (comms.flatMap fun c =>
        mem.map fun e => Call.deregister_address c e.1).foldl Call.done s.handles⟩ := by
  obtain ⟨hasks, hdone⟩ := deregister_all (h := s.handles) (nodup_perm hs hmem)
    (hcomms.nodup_iff.mpr hs.comms)
    fun c hc => (hs.attached c (hcomms.subset hc)).trans hmem.symm
  refine ⟨hasks, ⟨List.nodup_nil, List.nodup_nil, fun c hc => absurd hc List.not_mem_nil, ?_⟩⟩
  intro c _
  simp only
  rw [hdone]
  split
  · rfl
  · rename_i hc
    exact hs.others c fun hmem' => hc (hcomms.mem_iff.mpr hmem')

theorem Attached.asks
    (op : Op) : AllAsk (s.calls mem comms op) s.handles := by
  cases op with
  | regDeregMem te =>
    cases haction : te.action with
    | SEGMENT_ALLOC =>
      simp only [calls, haction]
      split
      · trivial
      · rename_i hc
        exact (hs.alloc hcomms te.size (Bool.eq_false_iff.mpr hc)).1
    | SEGMENT_FREE =>
      simp only [calls, haction]
      split
      · rename_i hc
        exact (hs.free hcomms hc).1
      · trivial
    | other =>
      simp only [calls, haction]
      trivial
  | registerComm c =>
    simp only [calls]
    split
    · trivial
    · rename_i hc
      exact (hs.attach hmem hc).1
  | deregisterComm c =>
    simp only [calls]
    split
    · rename_i hc
      exact (hs.detach hmem hc).1
    · trivial
  | clear => exact (hs.cleared hmem hcomms).1

/-- An operation in which nothing fails leaves an attached state, unless it was refused. -/
theorem Attached.clean
    (hclean : ∀ i < (s.calls mem comms op).length, fails i = false) :
    (s.exec mem comms fails op).1.Attached := by
  have hrun : runCalls fails 0 (s.calls mem comms op) s.handles = _ :=
    runCalls_clean (hs.asks hmem hcomms op) (by simpa using hclean)
  cases op with
  | regDeregMem te =>
    cases haction : te.action with
    | SEGMENT_ALLOC =>
      cases hc : contains s.registeredMemMap te.addr with
      | true => simpa [exec, regDeregMem, haction, hc] using hs
      | false =>
        simp only [calls, haction, hc, Bool.false_eq_true, if_false] at hrun
        simp only [exec, regDeregMem, haction, hc, Bool.false_eq_true, if_false, hrun]
        exact (hs.alloc hcomms te.size hc).2
    | SEGMENT_FREE =>
      cases hc : contains s.registeredMemMap te.addr with
      | true =>
        simp only [calls, haction, hc, if_true] at hrun
        simp only [exec, regDeregMem, haction, hc, Bool.not_true, Bool.false_eq_true, if_false,
          hrun]
        exact (hs.free hcomms hc).2
      | false => simpa [exec, regDeregMem, haction, hc] using hs
    | other => simpa [exec, regDeregMem, haction] using hs
  | registerComm c =>
    by_cases hc : c ∈ s.registeredComms
    · simpa [exec, registerComm, hc] using hs
    · simp only [calls, hc, if_false] at hrun
      simp only [exec, registerComm, hc, if_false, hrun]
      exact (hs.attach hmem hc).2
  | deregisterComm c =>
    by_cases hc : c ∈ s.registeredComms
    · simp only [calls, hc, if_true] at hrun
      simp only [exec, deregisterComm, hc, not_true, if_false, hrun]
      exact (hs.detach hmem hc).2
    · simpa [exec, deregisterComm, hc] using hs
  | clear =>
    simp only [calls] at hrun
    simp only [exec, clear, hrun]
    exact (hs.cleared hmem hcomms).2

end

end

end

theorem Same.refl (s : Hook) : s.Same s := ⟨.refl _, .refl _, fun _ => .refl _⟩

theorem Attached.correct_iff_meets (hs : s.Attached) (hmem : mem.Perm s.registeredMemMap)
    (hcomms : comms.Perm s.registeredComms) :
    s.Correct (s.exec mem comms fails op) ↔ Meets s mem comms fails op := by
  have hasks := hs.asks hmem hcomms op
  constructor
  · intro hcorrect
    by_contra hnot
    rw [Meets, not_or] at hnot
    obtain ⟨hsome, hlate⟩ := hnot
    push Not at hsome
    obtain ⟨j, hj, hfail⟩ := hsome
    have hne : s.calls mem comms op ≠ [] := by
      intro hnil
      simp [hnil] at hj
    rcases s.exec_cases mem comms fails op with ⟨-, hnil⟩ | hruns
    · exact hne hnil
    · have hthrew := runCalls_threw (i := 0) hasks hj (by simpa using hfail)
      have hsame := hcorrect.2 (hruns.threw.trans hthrew)
      cases htrace : op.isTrace with
      | true => exact hruns.changed (hruns.threw.trans hthrew) htrace hsame.mem.length_eq
      | false =>
        have hfirst : fails 0 = false := by
          simpa [htrace] using hlate
        obtain ⟨kind, hkind⟩ := s.calls_kind mem comms op
        obtain ⟨c, hc⟩ := runCalls_changed hasks hne hfirst hkind
        rw [← hruns.handles] at hc
        exact hc (hsame.handles c).length_eq
  · rintro (hclean | ⟨hfirst, htrace⟩)
    · refine ⟨fun _ => hs.clean hmem hcomms hclean, fun hthrew => ?_⟩
      rcases s.exec_cases mem comms fails op with ⟨hexec, -⟩ | hruns
      · rw [hexec]
        exact .refl s
      · rw [hruns.threw, runCalls_clean hasks (by simpa using hclean)] at hthrew
        cases hthrew
    · by_cases hnil : s.calls mem comms op = []
      · have hclean : ∀ i < (s.calls mem comms op).length, fails i = false := by simp [hnil]
        refine ⟨fun _ => hs.clean hmem hcomms hclean, fun hthrew => ?_⟩
        rcases s.exec_cases mem comms fails op with ⟨hexec, -⟩ | hruns
        · rw [hexec]
          exact .refl s
        · rw [hruns.threw, runCalls_clean hasks (by simpa using hclean)] at hthrew
          cases hthrew
      · rcases s.exec_cases mem comms fails op with ⟨hexec, -⟩ | hruns
        · rw [hexec]
          exact ⟨fun hnot => absurd hnot.symm Bool.false_ne_true, fun _ => .refl s⟩
        · have hrun := runCalls_first (i := 0) hasks hnil hfirst
          have hthrew : (s.exec mem comms fails op).2 = true := by rw [hruns.threw, hrun]
          obtain ⟨hsame_mem, hsame_comms⟩ := hruns.same hthrew htrace
          refine ⟨fun hnot => absurd (hthrew.symm.trans hnot).symm Bool.false_ne_true,
            fun _ => ⟨?_, ?_, fun c => ?_⟩⟩
          · rw [hsame_mem]
          · rw [hsame_comms]
          · rw [hruns.handles, hrun]

/-! ## Runs -/

theorem attached_init : Attached .init where
  mem := List.nodup_nil
  comms := List.nodup_nil
  attached := fun _ hc => absurd hc List.not_mem_nil
  others := fun _ _ => rfl

theorem Same.attached (hsame : s.Same t) (hs : s.Attached) : t.Attached where
  mem := (hsame.mem.map _).nodup_iff.mpr hs.mem
  comms := hsame.comms.nodup_iff.mpr hs.comms
  attached := fun c hc => (hsame.handles c).trans
    ((hs.attached c (hsame.comms.subset hc)).trans hsame.mem.symm)
  others := by
    intro c hc
    have hnil := hs.others c fun hmem => hc (hsame.comms.mem_iff.mpr hmem)
    exact List.perm_nil.mp (hnil ▸ hsame.handles c)

theorem Correct.attached {r : Hook × Bool} (hr : s.Correct r) (hs : s.Attached) : r.1.Attached := by
  cases hthrew : r.2 with
  | true => exact (hr.2 hthrew).attached hs
  | false => exact hr.1 hthrew

theorem reachable_attached (hs : Reachable s) : s.Attached := by
  induction hs with
  | init => exact attached_init
  | step mem comms fails op _ hmem hcomms hop ih =>
    exact ((ih.correct_iff_meets hmem hcomms).mpr hop).attached ih

end Hook

/-- In a run whose operations all meet the condition the segments are registered, and the next
operation keeps its promise exactly if it meets the condition too. -/
theorem segments_registered_iff (hs : Reachable s) :
    s.Attached ∧ ∀ (mem : List (ℕ × ℕ)) (comms : List ℕ) (fails : ℕ → Bool) (op : Op),
      mem.Perm s.registeredMemMap → comms.Perm s.registeredComms →
        (s.Correct (s.exec mem comms fails op) ↔ Meets s mem comms fails op) :=
  ⟨Hook.reachable_attached hs, fun _ _ _ _ hmem hcomms =>
    (Hook.reachable_attached hs).correct_iff_meets hmem hcomms⟩

theorem reachable_comm : Reachable ⟨[], [7], fun _ => []⟩ :=
  .step [] [] (fun _ => false) (.registerComm 7) .init (.refl _) (.refl _)
    (.inl fun _ _ => rfl)

/-- A segment is registered with an attached communicator, and the next operation is to free it. -/
theorem segments_registered_iff_one :
    ∃ s : Hook, s.registeredMemMap = [(4096, 64)] ∧ s.handles 7 = [(4096, 64)] ∧
      (s.Correct (s.exec [(4096, 64)] [7] (fun _ => false)
          (.regDeregMem ⟨.SEGMENT_FREE, 4096, 64⟩)) ↔
        Meets s [(4096, 64)] [7] (fun _ => false) (.regDeregMem ⟨.SEGMENT_FREE, 4096, 64⟩)) :=
  ⟨_, rfl, rfl, (segments_registered_iff (.step [] [7] (fun _ => false)
      (.regDeregMem ⟨.SEGMENT_ALLOC, 4096, 64⟩) reachable_comm (.refl _)
      (.refl _) (.inl fun _ _ => rfl))).2 _ _ _ _ (.refl _) (.refl _)⟩

/-- NCCL refuses a new segment: it stays in the map, and the communicator does not have it. -/
theorem not_correct_refused :
    ∃ (s : Hook) (r : Hook × Bool), Reachable s ∧
      r = s.exec [] [7] (fun _ => true) (.regDeregMem ⟨.SEGMENT_ALLOC, 4096, 64⟩) ∧
      s.registeredMemMap = [] ∧ r.2 = true ∧ r.1.registeredMemMap = [(4096, 64)] ∧
      r.1.registeredComms = [7] ∧ r.1.handles 7 = [] ∧ ¬s.Correct r := by
  refine ⟨_, _, reachable_comm, rfl, rfl, rfl, rfl, rfl, rfl, fun hcorrect => ?_⟩
  have hsame := (hcorrect.2 rfl).mem.length_eq
  revert hsame
  decide

end TorchComms.Ncclx.AllocatorHook
