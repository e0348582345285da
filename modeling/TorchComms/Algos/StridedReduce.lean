import TorchComms.Algos.LocalReduceOutcome
import TorchComms.Foundation.RoundRace
import Mathlib.Tactic.Linarith

/-! # Reducing strided blocks

`ctranKernMultiStridedReduce` on one element. More blocks than a local reduce takes are reduced in
rounds, each of which also gets the result of the one before it. A thread block has a barrier only
with itself.
-/
namespace TorchComms.Algos.StridedReduce
open Foundation LocalReduce

variable {L : Launch}

/-- The blocks and the destination do not overlap, and `blockCount` is the count of the launch. -/
structure Strided (L : Launch) where
  dst : ℕ
  stridedSrc : ℕ
  numBlocks : ℕ
  stride : ℕ
  inplaceBlockIdx : ℤ
  numBlocks_pos : 0 < numBlocks
  inplaceBlockIdx_ge : -1 ≤ inplaceBlockIdx
  inplaceBlockIdx_lt : inplaceBlockIdx < numBlocks
  count_le : L.count ≤ stride
  apart : ∀ i < numBlocks,
    dst + L.count * L.sizeofT ≤ stridedSrc + i * stride * L.sizeofT ∨
      stridedSrc + i * stride * L.sizeofT + L.count * L.sizeofT ≤ dst

/-- One local reduce. -/
structure Round where
  srcs : List ℕ
  redDst : ℕ
  isLast : Bool
  srcs_pos : 0 < srcs.length
  srcs_le : srcs.length ≤ CTRAN_MAX_NVL_PEERS

instance : Inhabited Round := ⟨⟨[0], 0, false, by decide, by decide⟩⟩

def Round.buffers (ρ : Round) : Buffers := ⟨ρ.srcs, [ρ.redDst], ρ.srcs_pos, ρ.srcs_le, Nat.one_pos⟩

/-- How the elements of a round are given to the threads. -/
def Round.path (ρ : Round) (L : Launch) : Path := localReduce ρ.buffers L

/-- The average is taken in the last round only. -/
def Round.redOp (ρ : Round) (redOp : RedOp) (finalReduce : Bool) : RedOp :=
  if redOp = .commAvg then
    if finalReduce && ρ.isLast then redOp else .commSum
  else redOp

namespace Strided

variable (S : Strided L)

def block (i : ℕ) : ℕ := S.stridedSrc + i * S.stride * L.sizeofT

def source (srcsIdx : ℕ) : ℕ := if S.inplaceBlockIdx = srcsIdx then S.dst else S.block srcsIdx

/-- Before the block in place is reached its value must not be overwritten. -/
def redDst (srcsIdx : ℕ) : ℕ :=
  if 0 < S.inplaceBlockIdx ∧ (srcsIdx : ℤ) - 1 < S.inplaceBlockIdx then
    S.block S.inplaceBlockIdx.toNat
  else S.dst

theorem length_source_pos (srcVec : List ℕ) (a : ℕ) : 0 < (srcVec ++ [a]).length := by
  rw [List.length_append]
  exact Nat.succ_pos _

theorem length_source_le {srcVec : List ℕ} (a : ℕ) (h : srcVec.length < CTRAN_MAX_NVL_PEERS) :
    (srcVec ++ [a]).length ≤ CTRAN_MAX_NVL_PEERS := by
  rw [List.length_append]
  exact h

theorem length_singleton_lt (a : ℕ) : [a].length < CTRAN_MAX_NVL_PEERS := by
  rw [List.length_singleton]
  decide

/-- The loop over the blocks that are left, with the sources collected so far. -/
def loop : (left srcsIdx : ℕ) → (srcVec : List ℕ) → srcVec.length < CTRAN_MAX_NVL_PEERS →
    List Round
  | 0, _, _, _ => []
  | left + 1, srcsIdx, srcVec, h =>
    if hfull : (srcVec ++ [S.source srcsIdx]).length = CTRAN_MAX_NVL_PEERS ∨
        srcsIdx + 1 = S.numBlocks then
      { srcs := srcVec ++ [S.source srcsIdx]
        redDst := S.redDst (srcsIdx + 1)
        isLast := srcsIdx + 1 = S.numBlocks
        srcs_pos := length_source_pos _ _
        srcs_le := length_source_le _ h } ::
          loop left (srcsIdx + 1) [S.redDst (srcsIdx + 1)] (length_singleton_lt _)
    else
      loop left (srcsIdx + 1) (srcVec ++ [S.source srcsIdx])
        (Nat.lt_of_le_of_ne (length_source_le _ h) fun heq => hfull (.inl heq))

def ctranKernMultiStridedReduce : List Round := S.loop S.numBlocks 0 [] (by decide)

end Strided

/-- The turn of a thread in which it reduces an element. -/
def turn (v : Visit L) : ℕ ×ₗ ℕ :=
  match v.slot with
  | .main k _ _ => toLex (0, k)
  | .epilogue k => toLex (1, k)

section Value

variable {α : Type} [Add α] [Mul α] [LT α] [DecidableLT α] [Inhabited α]

/-- What all threads of all thread blocks do. -/
def rounds (S : Strided L) (redOp : RedOp) (finalReduce : Bool) (divide : α → ℤ → α) (nRanks : ℤ) :
    Rounds (Visit L) ℕ α (Thread L) ℕ (ℕ ×ₗ ℕ) where
  rounds := S.ctranKernMultiStridedReduce.length
  count := L.count
  tasks := fun r =>
    let ρ := S.ctranKernMultiStridedReduce.getD r default
    tasks (reduced (ρ.redOp redOp finalReduce) divide nRanks) (ρ.path L) L ρ.buffers
  runs := fun r v => v.Runs ((S.ctranKernMultiStridedReduce.getD r default).path L)
  thread := Visit.thread
  turn := turn
  block := Thread.workerId

/-- The reduction over all blocks, divided once when this is the final reduce of an average. -/
def expected (S : Strided L) (redOp : RedOp) (finalReduce : Bool) (divide : α → ℤ → α) (nRanks : ℤ)
    (init : ℕ → α) : α :=
  reduced (if redOp = .commAvg ∧ finalReduce = false then .commSum else redOp) divide nRanks
    ((List.range S.numBlocks).map fun i => init (S.source i))

/-- Whatever the order of the thread blocks, the destination holds what it should. -/
def Right (S : Strided L) (redOp : RedOp) (finalReduce : Bool) (divide : α → ℤ → α) (nRanks : ℤ) :
    Prop :=
  ∀ trace, (rounds S redOp finalReduce divide nRanks).Legal trace →
    ∀ (c : Cells (ℕ × Visit L) ℕ α), ∀ x < L.count,
      ((rounds S redOp finalReduce divide nRanks).final c trace).mem S.dst x =
        expected S redOp finalReduce divide nRanks fun a => c.mem a x

end Value

/-- The loops of all rounds end, with every element once, and the destination is right for every
element type and operation. -/
structure Correct (S : Strided L) : Prop where
  exact : ∀ ρ ∈ S.ctranKernMultiStridedReduce, LocalReduce.Exact (ρ.path L) L
  right : ∀ (α : Type) [Add α] [Mul α] [LT α] [DecidableLT α] [Inhabited α] (redOp : RedOp)
    (finalReduce : Bool) (divide : α → ℤ → α) (nRanks : ℤ),
    Right S redOp finalReduce divide nRanks

end TorchComms.Algos.StridedReduce

/-! ## Rounds over strided blocks

One after the other the rounds give the reduction over all blocks. Every round but the last has as
many sources as a local reduce takes.
-/
namespace TorchComms.Algos.StridedReduce
open Foundation LocalReduce Function

variable {L : Launch}

/-! ## What the loop makes -/

/-- The rounds from a block on. -/
inductive Emits (S : Strided L) : ℕ → List ℕ → List Round → Prop
  | last {idx vec ρ} : idx + 1 = S.numBlocks → ρ.srcs = vec ++ [S.source idx] →
    ρ.redDst = S.dst → ρ.isLast = true → Emits S idx vec [ρ]
  | full {idx vec ρ l} : idx + 1 < S.numBlocks → ρ.srcs = vec ++ [S.source idx] →
    ρ.srcs.length = CTRAN_MAX_NVL_PEERS → ρ.redDst = S.redDst (idx + 1) → ρ.isLast = false →
    Emits S (idx + 1) [ρ.redDst] l → Emits S idx vec (ρ :: l)
  | more {idx vec l} : idx + 1 < S.numBlocks → Emits S (idx + 1) (vec ++ [S.source idx]) l →
    Emits S idx vec l

variable {S : Strided L} {idx left i j n r : ℕ} {vec : List ℕ} {l : List Round}

theorem redDst_numBlocks (S : Strided L) : S.redDst S.numBlocks = S.dst := by
  have hlt := S.inplaceBlockIdx_lt
  exact if_neg fun h => by omega

theorem loop_emits (hsum : left + 1 + idx = S.numBlocks) (h : vec.length < CTRAN_MAX_NVL_PEERS) :
    Emits S idx vec (S.loop (left + 1) idx vec h) := by
  induction left generalizing idx vec with
  | zero =>
    have hlast : idx + 1 = S.numBlocks := by omega
    rw [Strided.loop, dif_pos (.inr hlast)]
    exact .last hlast rfl (hlast ▸ redDst_numBlocks S) (decide_eq_true hlast)
  | succ left ih =>
    have hmore : idx + 1 < S.numBlocks := by omega
    rw [Strided.loop]
    split
    · next hfull =>
      exact .full hmore rfl (hfull.resolve_right hmore.ne) rfl (decide_eq_false hmore.ne)
        (ih (by omega) _)
    · exact .more hmore (ih (by omega) _)

theorem kernel_emits (S : Strided L) : Emits S 0 [] S.ctranKernMultiStridedReduce := by
  have hpos := S.numBlocks_pos
  rw [Strided.ctranKernMultiStridedReduce]
  generalize hn : S.numBlocks = n at hpos
  cases n with
  | zero => exact absurd hpos (Nat.lt_irrefl 0)
  | succ n => exact loop_emits (by omega) _

/-! ## Arrays -/

theorem sizeofT_pos (L : Launch) : 0 < L.sizeofT := Nat.pos_of_dvd_of_pos L.sizeofT_dvd (by decide)

theorem block_ne_dst (hcount : 0 < L.count) (hi : i < S.numBlocks) : S.block i ≠ S.dst := by
  intro heq
  have hpos := Nat.mul_pos hcount (sizeofT_pos L)
  rcases S.apart i hi with h | h <;> change S.stridedSrc + i * S.stride * L.sizeofT = _ at heq <;>
    omega

theorem block_inj (hcount : 0 < L.count) (heq : S.block i = S.block j) : i = j := by
  have hstride : 0 < S.stride := hcount.trans_le S.count_le
  have hmul : i * S.stride * L.sizeofT = j * S.stride * L.sizeofT := Nat.add_left_cancel heq
  exact Nat.eq_of_mul_eq_mul_right hstride (Nat.eq_of_mul_eq_mul_right (sizeofT_pos L) hmul)

theorem redDst_ne_source (hcount : 0 < L.count) (hle : idx + 1 ≤ i) (hi : i < S.numBlocks) :
    S.redDst (idx + 1) ≠ S.source i := by
  have hlt := S.inplaceBlockIdx_lt
  rw [Strided.redDst, Strided.source]
  split
  · next hscratch =>
    split
    · exact block_ne_dst hcount (by omega)
    · next hne =>
      intro heq
      have := block_inj hcount heq
      omega
  · next hdst =>
    split
    · next heq =>
      exfalso
      apply hdst
      omega
    · exact (block_ne_dst hcount hi).symm

/-! ## One after the other -/

section Value

variable {α : Type} [Add α] [Mul α] [LT α] [DecidableLT α] [Inhabited α] {redOp : RedOp}
  {finalReduce : Bool} {divide : α → ℤ → α} {nRanks : ℤ} {mem init : ℕ → α}

def Round.run (redOp : RedOp) (finalReduce : Bool) (divide : α → ℤ → α) (nRanks : ℤ)
    (mem : ℕ → α) (ρ : Round) : ℕ → α :=
  update mem ρ.redDst (reduced (ρ.redOp redOp finalReduce) divide nRanks (ρ.srcs.map mem))

theorem tasks_value (S : Strided L) (r : ℕ) (f : ℕ → α) :
    ((rounds S redOp finalReduce divide nRanks).tasks r).value
      ((List.range ((rounds S redOp finalReduce divide nRanks).tasks r).numSrcs).map fun j =>
        f (((rounds S redOp finalReduce divide nRanks).tasks r).srcs j)) =
      reduced ((S.ctranKernMultiStridedReduce.getD r default).redOp redOp finalReduce) divide nRanks
        ((S.ctranKernMultiStridedReduce.getD r default).srcs.map f) :=
  congrArg _ (srcs_map (S.ctranKernMultiStridedReduce.getD r default).buffers f)

theorem tasks_redDst (S : Strided L) (r : ℕ) :
    ((rounds S redOp finalReduce divide nRanks).tasks r).dsts 0 =
      (S.ctranKernMultiStridedReduce.getD r default).redDst := rfl

theorem rounds_after (hn : n ≤ S.ctranKernMultiStridedReduce.length) :
    (rounds S redOp finalReduce divide nRanks).after init n =
      (S.ctranKernMultiStridedReduce.take n).foldl
        (Round.run redOp finalReduce divide nRanks) init := by
  induction n with
  | zero => rfl
  | succ n ih =>
    have hρ : S.ctranKernMultiStridedReduce.getD n default =
        S.ctranKernMultiStridedReduce[n] := by
      simp [List.getElem?_eq_getElem hn]
    rw [Rounds.after, ih (Nat.le_of_succ_le hn), tasks_value, List.take_succ_eq_append_getElem hn,
      List.foldl_append, List.foldl_cons, List.foldl_nil, Round.run, ← hρ]
    rfl

/-- The operation of the last round. -/
def lastOp (redOp : RedOp) (finalReduce : Bool) : RedOp :=
  if redOp = .commAvg ∧ finalReduce = false then .commSum else redOp

variable {ρ : Round}

theorem redOp_last (h : ρ.isLast = true) :
    ρ.redOp redOp finalReduce = lastOp redOp finalReduce := by
  cases redOp <;> cases finalReduce <;> simp [Round.redOp, lastOp, h]

theorem reduced_append (h : ρ.isLast = false) {s rest : List α} (hs : s ≠ []) :
    reduced (lastOp redOp finalReduce) divide nRanks
        (reduced (ρ.redOp redOp finalReduce) divide nRanks s :: rest) =
      reduced (lastOp redOp finalReduce) divide nRanks (s ++ rest) := by
  have hop : (reduceNcclOp1 (ρ.redOp redOp finalReduce) : α → α → α) =
      reduceNcclOp1 (lastOp redOp finalReduce) := by
    funext a b
    cases redOp <;> cases finalReduce <;> simp [Round.redOp, lastOp, h, reduceNcclOp1]
  have hne : ρ.redOp redOp finalReduce ≠ .commAvg := by
    cases redOp <;> simp [Round.redOp, h]
  cases s with
  | nil => exact absurd rfl hs
  | cons a s => simp [reduced, hne, hop]

theorem Emits.foldl_dst (hcount : 0 < L.count) (init : ℕ → α) (h : Emits S idx vec l)
    (hkept : ∀ i, idx ≤ i → i < S.numBlocks → mem (S.source i) = init (S.source i)) :
    l.foldl (Round.run redOp finalReduce divide nRanks) mem S.dst =
      reduced (lastOp redOp finalReduce) divide nRanks (vec.map mem ++
        (List.range' idx (S.numBlocks - idx)).map fun i => init (S.source i)) := by
  induction h generalizing mem with
  | @last idx vec ρ hlast hsrcs hdst hop =>
    have hone : S.numBlocks - idx = 1 := by omega
    rw [hone, List.foldl_cons, List.foldl_nil, Round.run, hdst, update_self, redOp_last hop, hsrcs]
    simp [hkept idx (Nat.le_refl idx) (by omega)]
  | @full idx vec ρ l hmore hsrcs hlen hdst hop _ ih =>
    have hleft : S.numBlocks - idx = S.numBlocks - (idx + 1) + 1 := by omega
    have hne : ρ.srcs.map mem ≠ [] := by
      rw [hsrcs]
      simp
    rw [List.foldl_cons, ih, Round.run]
    · rw [List.map_singleton, update_self, List.singleton_append, reduced_append hop hne, hsrcs,
        hleft, List.range'_succ]
      simp [hkept idx (Nat.le_refl idx) (by omega)]
    · intro i hle hi
      have hother := redDst_ne_source (S := S) hcount hle hi
      rw [Round.run, hdst, update_of_ne hother.symm]
      exact hkept i (by omega) hi
  | @more idx vec l hmore _ ih =>
    have hleft : S.numBlocks - idx = S.numBlocks - (idx + 1) + 1 := by omega
    rw [ih fun i hle hi => hkept i (by omega) hi, hleft, List.range'_succ]
    simp [hkept idx (Nat.le_refl idx) (by omega)]

theorem after_dst (hcount : 0 < L.count) (init : ℕ → α) :
    (rounds S redOp finalReduce divide nRanks).after init S.ctranKernMultiStridedReduce.length
        S.dst = expected S redOp finalReduce divide nRanks init := by
  rw [rounds_after (Nat.le_refl _), List.take_length,
    (kernel_emits S).foldl_dst hcount init fun _ _ _ => rfl, expected,
    List.range_eq_range']
  rfl

end Value

/-! ## The last round and the one before it -/

section

variable (h : Emits S idx vec l)
include h

theorem Emits.ne_nil : l ≠ [] := by
  induction h with
  | last => exact List.cons_ne_nil _ _
  | full => exact List.cons_ne_nil _ _
  | more _ _ ih => exact ih

theorem Emits.full_length :
    ∀ r, r + 1 < l.length → (l.getD r default).srcs.length = CTRAN_MAX_NVL_PEERS := by
  induction h with
  | last =>
    intro r hr
    simp at hr
  | full _ _ hlen _ _ _ ih =>
    intro r hr
    cases r with
    | zero => exact hlen
    | succ r => exact ih r (by simpa using hr)
  | more _ _ ih => exact ih

theorem Emits.last_dst : (l.getD (l.length - 1) default).redDst = S.dst := by
  induction h with
  | last _ _ hdst => exact hdst
  | @full _ _ _ l _ _ _ _ _ hl ih =>
    obtain ⟨n, hn⟩ := Nat.exists_eq_succ_of_ne_zero (List.length_pos_iff.mpr hl.ne_nil).ne'
    rw [hn] at ih
    simpa [hn] using ih
  | more _ _ ih => exact ih

theorem Emits.head : ∃ rest, (l.getD 0 default).srcs = vec ++ rest ∧
    ∀ a ∈ rest, ∃ i, idx ≤ i ∧ i < S.numBlocks ∧ a = S.source i := by
  induction h with
  | @last idx vec _ hlast hsrcs =>
    refine ⟨[S.source idx], hsrcs, fun a ha => ?_⟩
    exact ⟨idx, Nat.le_refl idx, by omega, List.mem_singleton.mp ha⟩
  | @full idx vec _ _ hmore hsrcs =>
    refine ⟨[S.source idx], hsrcs, fun a ha => ?_⟩
    exact ⟨idx, Nat.le_refl idx, by omega, List.mem_singleton.mp ha⟩
  | @more idx vec _ hmore _ ih =>
    obtain ⟨rest, hsrcs, hrest⟩ := ih
    refine ⟨S.source idx :: rest, by simpa using hsrcs, fun a ha => ?_⟩
    rcases List.mem_cons.mp ha with rfl | ha
    · exact ⟨idx, Nat.le_refl idx, by omega, rfl⟩
    · obtain ⟨i, hle, hi, rfl⟩ := hrest a ha
      exact ⟨i, by omega, hi, rfl⟩

end

theorem Emits.next (hcount : 0 < L.count) (h : Emits S idx vec l) : ∀ r, r + 1 < l.length →
    ∃ rest, (l.getD (r + 1) default).srcs = (l.getD r default).redDst :: rest ∧
      (l.getD r default).redDst ∉ rest := by
  induction h with
  | last =>
    intro r hr
    simp at hr
  | @full idx _ ρ l _ _ _ hdst _ hl ih =>
    intro r hr
    cases r with
    | zero =>
      obtain ⟨rest, hsrcs, hrest⟩ := hl.head
      refine ⟨rest, hsrcs, fun hmem => ?_⟩
      obtain ⟨i, hle, hi, heq⟩ := hrest _ hmem
      exact redDst_ne_source hcount hle hi (hdst.symm.trans heq)
    | succ r => exact ih r (by simpa using hr)
  | more _ _ ih => exact ih

/-! ## Sums of ones -/

section Sum

variable (finalReduce : Bool) (divide : ℤ → ℤ → ℤ) (nRanks : ℤ) {b : ℤ}

theorem reduced_commSum (s : List ℤ) : reduced .commSum divide nRanks s = s.sum := by
  cases s with
  | nil => rfl
  | cons a s =>
    have hfold : ∀ a, s.foldl (reduceNcclOp1 .commSum) a = a + s.sum := by
      induction s with
      | nil => simp
      | cons a' s ih =>
        intro a
        rw [List.foldl_cons, ih, List.sum_cons]
        exact Int.add_assoc _ _ _
    simp [reduced, hfold]

theorem redOp_commSum (ρ : Round) : ρ.redOp .commSum finalReduce = .commSum := rfl

theorem run_commSum (mem : ℕ → ℤ) (ρ : Round) : Round.run .commSum finalReduce divide nRanks mem ρ =
    update mem ρ.redDst (ρ.srcs.map mem).sum := by
  rw [Round.run, redOp_commSum, reduced_commSum]

theorem Emits.grows (mem : ℕ → ℤ) (hcount : 0 < L.count) (h : Emits S idx vec l)
    (hle : ∀ a, mem a ≤ b) (hone : ∀ i, idx ≤ i → i < S.numBlocks → mem (S.source i) = 1)
    (hsum : (vec.map mem).sum + 1 = b + vec.length) : ∀ r, r + 1 < l.length →
      (∀ a, (l.take r).foldl (Round.run .commSum finalReduce divide nRanks) mem a ≤ b + 31 * r) ∧
        (l.take (r + 1)).foldl (Round.run .commSum finalReduce divide nRanks) mem
          (l.getD r default).redDst = b + 31 * (r + 1) := by
  induction h generalizing mem b with
  | last =>
    intro r hr
    simp at hr
  | @full idx vec ρ l hmore hsrcs hlen hdst _ _ ih =>
    have hnew : (ρ.srcs.map mem).sum = b + 31 := by
      have hlen' : (vec.length : ℤ) = 31 := by
        rw [hsrcs] at hlen
        simp [CTRAN_MAX_NVL_PEERS] at hlen
        omega
      rw [hsrcs]
      simp [hone idx (Nat.le_refl idx) (by omega)]
      omega
    intro r hr
    cases r with
    | zero =>
      constructor
      · simpa using hle
      · simp [run_commSum, hnew]
    | succ r =>
      have hle' : ∀ a, Round.run .commSum finalReduce divide nRanks mem ρ a ≤ b + 31 := by
        intro a
        rw [run_commSum, hnew]
        by_cases ha : a = ρ.redDst
        · rw [ha, update_self]
        · rw [update_of_ne ha]
          have := hle a
          omega
      have hone' : ∀ i, idx + 1 ≤ i → i < S.numBlocks →
          Round.run .commSum finalReduce divide nRanks mem ρ (S.source i) = 1 := by
        intro i hi hlt
        have hother := redDst_ne_source (S := S) hcount hi hlt
        rw [run_commSum, hdst, update_of_ne hother.symm]
        exact hone i (by omega) hlt
      obtain ⟨hbelow, hresult⟩ := ih _ hle' hone' (by simp [run_commSum, hnew]) r
        (by simpa using hr)
      constructor
      · intro a
        have := hbelow a
        rw [List.take_succ_cons, List.foldl_cons]
        push_cast
        omega
      · simp only [List.getD_cons_succ, List.take_succ_cons, List.foldl_cons] at hresult ⊢
        rw [hresult]
        push_cast
        omega
  | @more idx vec l hmore _ ih =>
    refine ih mem hle (fun i hi hlt => hone i (by omega) hlt) ?_
    simp [hone idx (Nat.le_refl idx) (by omega)]
    omega

end Sum

end TorchComms.Algos.StridedReduce
