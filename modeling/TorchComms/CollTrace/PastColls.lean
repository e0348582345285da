import TorchComms.CollTrace.CommDumpRecords
import TorchComms.Foundation.Run

/-! # The past collectives of the dump

A run of calls on one plugin. Each call holds the lock of the dump; what it moves from the queue
into `pendingColls` is a call of its own here, which `dump` and a refused callback may make too.
-/
namespace TorchComms.CollTrace

open Foundation

inductive DumpCall
  | enqueuePendingColls (colls : List ℕ)
  | afterCollKernelStart (coll : ℕ)
  | afterCollKernelEnd (coll : ℕ)
  deriving DecidableEq, Repr

inductive DumpFault
  | popFrontOfEmpty
  deriving DecidableEq, Repr

/-- The dump with the collectives whose `afterCollKernelEnd` was accepted, in order. -/
structure Recorded where
  collTraceDump_ : CollTraceDump
  finished : List ℕ
  deriving DecidableEq, Repr

namespace Recorded

def init : Recorded := ⟨⟨[], none, []⟩, []⟩

def step (config : CommDumpConfig) (s : Recorded) : DumpCall → Except DumpFault Recorded
  | .enqueuePendingColls colls =>
    let pendingColls := s.collTraceDump_.pendingColls ++ colls
    .ok { s with collTraceDump_ := { s.collTraceDump_ with pendingColls := pendingColls } }
  | .afterCollKernelStart coll => .ok { s with collTraceDump_ := s.collTraceDump_.start coll }
  | .afterCollKernelEnd coll =>
    match s.collTraceDump_.finish config coll with
    | none => .error .popFrontOfEmpty
    | some d =>
      let accepted := s.collTraceDump_.currentColl = some coll
      .ok ⟨d, if accepted then s.finished ++ [coll] else s.finished⟩

/-- The collectives in `pastColls` are the last `pastCollSize` that finished, or all of them. -/
def KeepsLast (config : CommDumpConfig) (s : Recorded) : Prop :=
  s.collTraceDump_.pastColls = window config.pastCollSize s.finished

variable {config : CommDumpConfig} {s : Recorded}

theorem start_pastColls (d : CollTraceDump) (coll : ℕ) :
    (d.start coll).pastColls = d.pastColls := by
  unfold CollTraceDump.start
  split
  · rfl
  · split
    · rfl
    · split <;> rfl

theorem afterCollKernelEnd_keepsLast (hsize : config.pastCollSize ≠ 0) (h : s.KeepsLast config)
    (coll : ℕ) : ∃ t, s.step config (.afterCollKernelEnd coll) = .ok t ∧ t.KeepsLast config := by
  by_cases hcurrent : s.collTraceDump_.currentColl = some coll
  · obtain ⟨past, hevict, hpast⟩ := evict_window hsize s.finished coll
    have hfinish : s.collTraceDump_.finish config coll =
        some { s.collTraceDump_ with pastColls := past ++ [coll], currentColl := none } := by
      rw [CollTraceDump.finish, if_neg (not_not_intro hcurrent), h, hevict]
      rfl
    refine ⟨_, by rw [step, hfinish], ?_⟩
    rw [KeepsLast, if_pos hcurrent]
    exact hpast
  · have hfinish : s.collTraceDump_.finish config coll = some s.collTraceDump_ := by
      rw [CollTraceDump.finish, if_pos hcurrent]
    refine ⟨_, by rw [step, hfinish], ?_⟩
    rw [KeepsLast, if_neg hcurrent]
    exact h

theorem step_keepsLast (hsize : config.pastCollSize ≠ 0) (h : s.KeepsLast config)
    (call : DumpCall) : ∃ t, s.step config call = .ok t ∧ t.KeepsLast config := by
  cases call with
  | enqueuePendingColls colls => exact ⟨_, rfl, h⟩
  | afterCollKernelStart coll =>
    refine ⟨_, rfl, ?_⟩
    rw [KeepsLast, start_pastColls]
    exact h
  | afterCollKernelEnd coll => exact afterCollKernelEnd_keepsLast hsize h coll

theorem run_of_zero (hsize : config.pastCollSize = 0) (coll : ℕ) :
    run (step config) init
      [.enqueuePendingColls [coll], .afterCollKernelStart coll, .afterCollKernelEnd coll] =
        .error .popFrontOfEmpty := by
  simp [run, step, init, CollTraceDump.start, CollTraceDump.finish, evict, hsize]

theorem pastColls_iff (config : CommDumpConfig) :
    (∀ calls, ∃ s, run (step config) init calls = .ok s ∧ s.KeepsLast config) ↔
      config.pastCollSize ≠ 0 := by
  constructor
  · intro h hsize
    obtain ⟨s, hrun, -⟩ := h
      [.enqueuePendingColls [0], .afterCollKernelStart 0, .afterCollKernelEnd 0]
    rw [run_of_zero hsize] at hrun
    cases hrun
  · intro hsize calls
    have hall : Admissible (step config) (fun _ _ _ => True) [] init calls :=
      admissible_of_forall _ _ fun _ _ => trivial
    refine run_invariant (fun _ (s : Recorded) => s.KeepsLast config)
      (fun _ s call h _ => step_keepsLast hsize h call) calls ?_ hall
    exact (List.eq_nil_of_sublist_nil (window_sublist _ _)).symm

theorem not_pastColls_zero :
    ¬ ∀ calls, ∃ s, run (step ⟨0, 1⟩) init calls = .ok s ∧ s.KeepsLast ⟨0, 1⟩ := by
  intro h
  obtain ⟨s, hrun, -⟩ := h
    [.enqueuePendingColls [7], .afterCollKernelStart 7, .afterCollKernelEnd 7]
  rw [run_of_zero rfl] at hrun
  cases hrun

end Recorded

end TorchComms.CollTrace
