import TorchComms.Foundation.RoundTrace
import Mathlib.Data.Finite.Prod
import Mathlib.Data.Prod.Lex
import Mathlib.Data.Set.Finite.Lattice
import Mathlib.Order.Interval.Finset.Nat

/-! # Rounds that race

Events sorted by a key that respects threads and blocks are a trace. Where the last round gives a
cell to another block than the rounds before it, one such key lets the last round load the cell
before the round before it has stored it.
-/
namespace TorchComms.Foundation
open Function

variable {V β α θ ω τ κ : Type*}

namespace Rounds

variable {R : Rounds V β α θ ω τ} {past rest trace : List (RoundEvent V)} {e e' : RoundEvent V}
  {r m x : ℕ} {v : V}

/-! ## Sorted traces -/

theorem Exact.finite_runs (hR : R.Exact) (hr : r < R.rounds) : {v | R.runs r v}.Finite := by
  apply Set.Finite.of_injOn (f := (R.tasks r).target) (t := Set.Iio R.count)
  · intro v hv
    exact hR.target_lt hr hv
  · intro v hv v' hv' heq
    exact hR.alone hr hv hv' heq
  · exact Set.finite_Iio _

theorem Exact.finite (hR : R.Exact) : {e | R.Valid e}.Finite := by
  have hall : (⋃ r ∈ Set.Iio R.rounds, RoundEvent.store r '' {v | R.runs r v} ∪
      Set.image2 (RoundEvent.load r) {v | R.runs r v} (Set.Iio (R.tasks r).numSrcs)).Finite := by
    apply (Set.finite_Iio R.rounds).biUnion
    intro r hr
    exact ((hR.finite_runs hr).image _).union
      ((hR.finite_runs hr).image2 _ (Set.finite_Iio _))
  apply hall.subset
  intro e he
  cases e with
  | load r v j =>
    exact Set.mem_biUnion he.1 (.inr ⟨v, he.2.1, j, he.2.2, rfl⟩)
  | store r v => exact Set.mem_biUnion he.1 (.inl ⟨v, he.2, rfl⟩)

section Sorted

variable [LT τ] [LinearOrder κ] {key : RoundEvent V → κ}

theorem exists_sorted (key : RoundEvent V → κ) (hfinite : {e | R.Valid e}.Finite)
    (hkey : ∀ e e', R.Before e e' → key e < key e') :
    ∃ trace, R.Legal trace ∧ trace.Pairwise fun e e' => key e ≤ key e' := by
  let le : RoundEvent V → RoundEvent V → Bool := fun e e' => key e ≤ key e'
  have htrans : ∀ e e' e'', le e e' → le e' e'' → le e e'' := by
    intro e e' e''
    simpa [le] using le_trans
  have htotal : ∀ e e', (le e e' || le e' e) = true := by
    intro e e'
    simpa [le] using le_total _ _
  have hsort := List.pairwise_mergeSort htrans htotal hfinite.toFinset.toList
  have hperm := List.mergeSort_perm hfinite.toFinset.toList le
  generalize hfinite.toFinset.toList.mergeSort _ = trace at hsort hperm
  have hsorted : trace.Pairwise fun e e' => key e ≤ key e' := by
    simpa [le] using hsort
  have hmem : ∀ e, e ∈ trace ↔ R.Valid e := by
    intro e
    rw [hperm.mem_iff]
    simp
  refine ⟨trace, ⟨hperm.nodup_iff.mpr (Finset.nodup_toList _), hmem, ?_⟩, hsorted⟩
  rintro past e' rest rfl e hvalid hbefore
  have hlt := hkey _ _ hbefore
  rcases List.mem_append.mp ((hmem e).mpr hvalid) with hpast | hrest
  · exact hpast
  · exfalso
    rcases List.mem_cons.mp hrest with rfl | hrest
    · exact lt_irrefl _ hlt
    · have hle := (List.pairwise_cons.mp (List.pairwise_append.mp hsorted).2.1).1 e hrest
      exact not_le_of_gt hlt hle

theorem mem_past (h : R.Legal trace) (hsorted : trace.Pairwise fun e e' => key e ≤ key e')
    (hsplit : trace = past ++ e :: rest) (hvalid : R.Valid e') (hlt : key e' < key e) :
    e' ∈ past := by
  subst hsplit
  rcases List.mem_append.mp ((h.mem_iff e').mpr hvalid) with hpast | hrest
  · exact hpast
  · exfalso
    rcases List.mem_cons.mp hrest with rfl | hrest
    · exact lt_irrefl _ hlt
    · have hle := (List.pairwise_cons.mp (List.pairwise_append.mp hsorted).2.1).1 e' hrest
      exact not_le_of_gt hlt hle

theorem not_mem_past (hsorted : trace.Pairwise fun e e' => key e ≤ key e')
    (hsplit : trace = past ++ e :: rest) (hlt : key e < key e') : e' ∉ past := by
  subst hsplit
  intro hpast
  have hle := (List.pairwise_append.mp hsorted).2.2 e' hpast e List.mem_cons_self
  exact not_le_of_gt hlt hle

end Sorted

/-! ## The last two rounds -/

/-- The block that has the cell in round `m` stops before its store. Another block stops before its
store in the last round. -/
structure Racing (R : Rounds V β α θ ω τ) (m x : ℕ) (va vb : V) : Prop where
  rounds : R.rounds = m + 2
  first : R.runs m vb ∧ (R.tasks m).target vb = x
  last : R.runs (m + 1) va ∧ (R.tasks (m + 1)).target va = x
  keeps : ∀ r ≤ m, ∀ v, R.runs r v → (R.tasks r).target v = x → R.blockOf v = R.blockOf vb
  moves : R.blockOf va ≠ R.blockOf vb

namespace Racing

variable {va vb : V} (h : R.Racing m x va vb)

include h

theorem eq_last (hR : R.Exact) (hv : R.runs (m + 1) v) (hx : (R.tasks (m + 1)).target v = x) :
    v = va := by
  apply hR.alone _ hv h.last.1 (hx.trans h.last.2.symm)
  rw [h.rounds]
  exact Nat.lt_succ_self _

theorem eq_first (hR : R.Exact) (hv : R.runs m v) (hx : (R.tasks m).target v = x) : v = vb := by
  apply hR.alone _ hv h.first.1 (hx.trans h.first.2.symm)
  rw [h.rounds]
  omega

end Racing

variable [LinearOrder τ]

/-- The order of the program. -/
def position (R : Rounds V β α θ ω τ) (e : RoundEvent V) : ℕ ×ₗ τ ×ₗ Bool :=
  toLex (e.round, toLex (R.turn e.task, e.stores))

theorem position_lt_of_round (h : e.round < e'.round) : R.position e < R.position e' :=
  Prod.Lex.toLex_lt_toLex.mpr (.inl h)

theorem position_load_lt {j : ℕ} : R.position (.load r v j) < R.position (.store r v) :=
  Prod.Lex.toLex_lt_toLex.mpr
    (.inr ⟨rfl, Prod.Lex.toLex_lt_toLex.mpr (.inr ⟨rfl, Bool.false_lt_true⟩)⟩)

namespace Racing

variable {va vb : V} (h : R.Racing m x va vb)

include h

theorem round_le (hlegal : R.Legal trace) (hsplit : trace = past ++ e :: rest)
    (hs : R.Stored past x r) : r ≤ m + 1 := by
  obtain ⟨v, hmem, -⟩ := hs
  have hlt := (hlegal.valid_past hsplit hmem).1
  rw [h.rounds] at hlt
  omega

end Racing

variable [DecidableEq ω]

def phase (R : Rounds V β α θ ω τ) (m : ℕ) (va vb : V) (e : RoundEvent V) : ℕ :=
  if R.blockOf e.task = R.blockOf vb then
    if R.position e < R.position (.store m vb) then 0 else 2
  else if R.position e < R.position (.store (m + 1) va) then 1 else 3

def raceKey (R : Rounds V β α θ ω τ) (m : ℕ) (va vb : V) (e : RoundEvent V) :
    ℕ ×ₗ ℕ ×ₗ τ ×ₗ Bool :=
  toLex (R.phase m va vb e, R.position e)

variable {va vb : V}

theorem raceKey_lt_of_phase (h : R.phase m va vb e < R.phase m va vb e') :
    R.raceKey m va vb e < R.raceKey m va vb e' :=
  Prod.Lex.toLex_lt_toLex.mpr (.inl h)

theorem raceKey_lt_of_position (hblock : R.blockOf e.task = R.blockOf e'.task)
    (h : R.position e < R.position e') : R.raceKey m va vb e < R.raceKey m va vb e' := by
  have hphase : R.phase m va vb e ≤ R.phase m va vb e' := by
    rw [phase, phase, hblock]
    have htrans : ∀ e'', R.position e' < R.position e'' → R.position e < R.position e'' :=
      fun _ => h.trans
    split_ifs with h1 h2 h3 h3 h4 h5 <;> first | omega | exact absurd (htrans _ ‹_›) ‹_›
  rcases Nat.lt_or_eq_of_le hphase with hlt | heq
  · exact raceKey_lt_of_phase hlt
  · exact Prod.Lex.toLex_lt_toLex.mpr (.inr ⟨heq, h⟩)

theorem raceKey_of_before (h : R.Before e e') : R.raceKey m va vb e < R.raceKey m va vb e' := by
  cases h with
  | task r v j =>
    have hblock : R.blockOf (RoundEvent.load r v j).task =
        R.blockOf (RoundEvent.store r v).task := rfl
    exact raceKey_lt_of_position hblock position_load_lt
  | turn hround hthread hturn =>
    apply raceKey_lt_of_position (congrArg R.block hthread)
    exact Prod.Lex.toLex_lt_toLex.mpr (.inr ⟨hround, Prod.Lex.toLex_lt_toLex.mpr (.inl hturn)⟩)
  | round hblock hround => exact raceKey_lt_of_position hblock (position_lt_of_round hround)

theorem phase_first : R.phase m va vb (.store m vb) = 2 := by
  simp [phase]

namespace Racing

variable (h : R.Racing m x va vb)

include h

theorem phase_last : R.phase m va vb (.store (m + 1) va) = 3 := by
  simp [phase, h.moves]

theorem phase_load (j : ℕ) : R.phase m va vb (.load (m + 1) va j) = 1 := by
  simp [phase, h.moves, position_load_lt]

theorem phase_le (hle : e.round ≤ m) (hv : R.runs e.round e.task)
    (hx : (R.tasks e.round).target e.task = x) : R.phase m va vb e ≤ 2 := by
  rw [phase, if_pos (h.keeps _ hle _ hv hx)]
  split <;> omega

theorem phase_early (hlt : r < m) (hv : R.runs r v) (hx : (R.tasks r).target v = x) :
    R.phase m va vb (.store r v) = 0 := by
  have hblock : R.blockOf (RoundEvent.store r v).task = R.blockOf vb := h.keeps r hlt.le v hv hx
  have hbefore : R.position (.store r v) < R.position (.store m vb) := position_lt_of_round hlt
  rw [phase, if_pos hblock, if_pos hbefore]

variable (hR : R.Exact) (hlegal : R.Legal trace)
  (hsorted : trace.Pairwise fun e e' => R.raceKey m va vb e ≤ R.raceKey m va vb e')
  (hsplit : trace = past ++ e :: rest)

include hR hlegal hsplit hsorted

theorem not_stored_last (hphase : R.phase m va vb e < 3) : ¬ R.Stored past x (m + 1) := by
  rintro ⟨v, hmem, hx⟩
  have hva := h.eq_last hR (hlegal.valid_past hsplit hmem).2 hx
  subst hva
  refine not_mem_past hsorted hsplit (raceKey_lt_of_phase ?_) hmem
  rwa [h.phase_last]

theorem stored_early (hphase : 0 < R.phase m va vb e) (hr : r < m) : R.Stored past x r := by
  have hlast := hR.target_lt (by rw [h.rounds]; exact Nat.lt_succ_self _) h.last.1
  have hrounds : r < R.rounds := by
    rw [h.rounds]
    omega
  obtain ⟨v, hv, hx⟩ := hR.covered hrounds (h.last.2 ▸ hlast)
  refine ⟨v, mem_past hlegal hsorted hsplit ⟨hrounds, hv⟩ (raceKey_lt_of_phase ?_), hx⟩
  rwa [h.phase_early hr hv hx]

theorem stored_iff_of_le (hle : e.round ≤ m) (hx : (R.tasks e.round).target e.task = x) :
    R.Stored past x r ↔ r < e.round := by
  subst hx
  have hv := (hlegal.valid hsplit).runs.2
  have hblock := h.keeps _ hle _ hv rfl
  constructor
  · intro hs
    by_contra hge
    rcases Nat.lt_or_eq_of_le (h.round_le hlegal hsplit hs) with hlt | rfl
    · refine hlegal.not_stored_of_le hR hsplit (Nat.le_of_not_lt hge) (fun v _ hv' hx => ?_) hs
      exact hblock.trans (h.keeps r (Nat.le_of_lt_succ hlt) v hv' hx).symm
    · have hphase := h.phase_le hle hv rfl
      exact h.not_stored_last hR hlegal hsorted hsplit (by omega) hs
  · intro hlt
    refine hlegal.stored_of_lt hR hsplit hlt fun v hv' hx => ?_
    exact (h.keeps r (hlt.le.trans hle) v hv' hx).trans hblock.symm

theorem stored_iff_load {j : ℕ} (heq : e = .load (m + 1) va j) : R.Stored past x r ↔ r < m := by
  have hphase : R.phase m va vb e = 1 := heq ▸ h.phase_load j
  constructor
  · intro hs
    by_contra hge
    have hle := h.round_le hlegal hsplit hs
    rcases Nat.lt_or_eq_of_le hle with hlt | rfl
    · obtain rfl : r = m := by omega
      obtain ⟨v, hmem, hx⟩ := hs
      obtain rfl := h.eq_first hR (hlegal.valid_past hsplit hmem).2 hx
      refine not_mem_past hsorted hsplit (raceKey_lt_of_phase ?_) hmem
      rw [phase_first, hphase]
      decide
    · exact h.not_stored_last hR hlegal hsorted hsplit (by omega) hs
  · exact h.stored_early hR hlegal hsorted hsplit (by omega)

theorem stored_iff_last (heq : e = .store (m + 1) va) : R.Stored past x r ↔ r < m + 1 := by
  have hphase : R.phase m va vb e = 3 := heq ▸ h.phase_last
  constructor
  · intro hs
    apply Nat.lt_of_le_of_ne (h.round_le hlegal hsplit hs)
    rintro rfl
    obtain ⟨v, hmem, hx⟩ := hs
    obtain rfl := h.eq_last hR (hlegal.valid_past hsplit hmem).2 hx
    exact hlegal.not_mem_past hsplit (heq ▸ hmem)
  · intro hlt
    rcases Nat.lt_succ_iff_lt_or_eq.mp hlt with hlt | rfl
    · exact h.stored_early hR hlegal hsorted hsplit (by omega) hlt
    · have hvalid : R.Valid (.store r vb) := ⟨by rw [h.rounds]; omega, h.first.1⟩
      refine ⟨vb, mem_past hlegal hsorted hsplit hvalid (raceKey_lt_of_phase ?_), h.first.2⟩
      rw [phase_first, hphase]
      decide

omit hsplit in
theorem inTurn : R.InTurn x (fun r => min r m) trace := by
  constructor
  · intro past r v j rest hsplit hx r'
    have hvalid := hlegal.valid hsplit
    rcases Nat.lt_or_ge m r with hlt | hle
    · obtain rfl : r = m + 1 := by
        have hr := hvalid.1
        rw [h.rounds] at hr
        omega
      obtain rfl := h.eq_last hR hvalid.2.1 hx
      rw [Nat.min_eq_right hlt.le]
      exact h.stored_iff_load hR hlegal hsorted hsplit rfl
    · rw [Nat.min_eq_left hle]
      exact h.stored_iff_of_le hR hlegal hsorted hsplit hle hx
  · intro past r v rest hsplit hx r'
    have hvalid := hlegal.valid hsplit
    rcases Nat.lt_or_ge m r with hlt | hle
    · obtain rfl : r = m + 1 := by
        have hr := hvalid.1
        rw [h.rounds] at hr
        omega
      obtain rfl := h.eq_last hR hvalid.2 hx
      exact h.stored_iff_last hR hlegal hsorted hsplit rfl
    · exact h.stored_iff_of_le hR hlegal hsorted hsplit hle hx

end Racing

/-- The last round may load what the cell held before the round before it. -/
theorem Racing.exists_legal [DecidableEq V] [DecidableEq β] (h : R.Racing m x va vb)
    (hR : R.Exact) : ∃ trace, R.Legal trace ∧ ∀ c : Cells (ℕ × V) β α,
      (R.final c trace).mem ((R.tasks (m + 1)).dsts 0) x =
        (R.tasks (m + 1)).value ((List.range (R.tasks (m + 1)).numSrcs).map fun j =>
          R.after (fun a => c.mem a x) m ((R.tasks (m + 1)).srcs j)) := by
  obtain ⟨trace, hlegal, hsorted⟩ := exists_sorted (R.raceKey m va vb) hR.finite
    fun e e' => raceKey_of_before
  refine ⟨trace, hlegal, fun c => ?_⟩
  have hx : x < R.count := by
    rw [← h.last.2]
    apply hR.target_lt _ h.last.1
    rw [h.rounds]
    exact Nat.lt_succ_self _
  let w := fun r => (R.tasks r).value ((List.range (R.tasks r).numSrcs).map fun j =>
    R.after (fun a => c.mem a x) (min r m) ((R.tasks r).srcs j))
  have hwritten : ∀ n ≤ m, R.written w (fun a => c.mem a x) n = R.after (fun a => c.mem a x) n := by
    intro n hn
    apply written_eq_after
    intro r hr
    change (R.tasks r).value _ = _
    rw [Nat.min_eq_left (by omega)]
  rw [hlegal.final_mem hR hx (h.inTurn hR hlegal hsorted) (w := w), h.rounds, written, update_self]
  · change (R.tasks (m + 1)).value _ = _
    rw [Nat.min_eq_right (Nat.le_succ m)]
  · intro r _
    rw [hwritten _ (Nat.min_le_right r m)]

end Rounds

end TorchComms.Foundation
