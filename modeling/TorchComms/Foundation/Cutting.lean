import Mathlib.Algebra.Order.BigOperators.Group.List
import Mathlib.Algebra.Order.Ring.Nat
import Mathlib.Data.List.Zip

/-! # Ranges cut into pieces

A range is cut into pieces of at most `m` bytes, given by offset and length. Two ranges that are cut
into equally many pieces match piece by piece.
-/
namespace TorchComms.Foundation

variable {α β γ δ : Type*} {m s r n o : ℕ}

/-- The next `n` pieces of a range, from the offset `o` on. -/
def pieces (m length : ℕ) : ℕ → ℕ → List (ℕ × ℕ)
  | 0, _ => []
  | n + 1, o => (o, min (length - o) m) :: pieces m length n (o + min (length - o) m)

@[simp] theorem length_pieces (m length n o : ℕ) : (pieces m length n o).length = n := by
  induction n generalizing o with
  | zero => rfl
  | succ n ih => rw [pieces, List.length_cons, ih]

/-- What is left from the offset `o` on fills `n` pieces. -/
structure Spans (m length n o : ℕ) : Prop where
  pos : 1 ≤ n
  start : o + n * m < length + m
  stop : length ≤ o + n * m

theorem spans_ceil (hm : 1 ≤ m) (hs : 1 ≤ s) : Spans m s ((s + m - 1) / m) 0 := by
  have hdiv := Nat.div_add_mod (s + m - 1) m
  have hmod := Nat.mod_lt (s + m - 1) hm
  refine ⟨?_, ?_, ?_⟩
  · rw [Nat.le_div_iff_mul_le hm]
    omega
  · rw [Nat.mul_comm]
    omega
  · rw [Nat.mul_comm]
    omega

theorem Spans.last (h : Spans m s 1 o) : min (s - o) m = s - o := by
  have hstop := h.stop
  rw [Nat.one_mul] at hstop
  omega

theorem Spans.next (h : Spans m s (n + 2) o) : min (s - o) m = m ∧ Spans m s (n + 1) (o + m) := by
  have hstart := h.start
  have hstop := h.stop
  rw [Nat.succ_mul] at hstart hstop
  refine ⟨?_, Nat.le_add_left 1 n, ?_, ?_⟩
  · rw [Nat.succ_mul] at hstart
    omega
  · omega
  · omega

theorem Spans.lt (h : Spans m s n o) : o < s := by
  have hstart := h.start
  have hle := Nat.le_mul_of_pos_left m h.pos
  omega

theorem Spans.piece_pos (h : Spans m s n o) (hm : 1 ≤ m) : ∀ p ∈ pieces m s n o, 1 ≤ p.2 := by
  induction n generalizing o with
  | zero => exact absurd h.pos (by decide)
  | succ n ih =>
    intro p hp
    have hlt := h.lt
    rcases List.mem_cons.mp hp with rfl | hp
    · simp only
      omega
    · cases n with
      | zero => cases hp
      | succ n =>
        rcases h.next with ⟨hmin, hnext⟩
        rw [hmin] at hp
        exact ih hnext p hp

/-- The ranges lie one behind the other from `o` to `e`, each of at least one byte and at most `m`. -/
def Tiles (m : ℕ) : ℕ → List (ℕ × ℕ) → ℕ → Prop
  | o, [], e => o = e
  | o, p :: ps, e => p.1 = o ∧ 1 ≤ p.2 ∧ p.2 ≤ m ∧ Tiles m (o + p.2) ps e

variable {ps : List (ℕ × ℕ)} {e : ℕ}

theorem Tiles.concat {e n : ℕ} (h : Tiles m o ps e) (hpos : 1 ≤ n) (hle : n ≤ m) :
    Tiles m o (ps ++ [(e, n)]) (e + n) := by
  induction ps generalizing o with
  | nil =>
    rw [show o = e from h]
    exact ⟨rfl, hpos, hle, rfl⟩
  | cons p ps ih =>
    rcases h with ⟨hstart, hp, hpm, hrest⟩
    exact ⟨hstart, hp, hpm, ih hrest⟩

theorem Tiles.le (h : Tiles m o ps e) : ∀ p ∈ ps, o ≤ p.1 := by
  induction ps generalizing o with
  | nil =>
    intro p hp
    cases hp
  | cons p ps ih =>
    rcases h with ⟨hstart, hp, hpm, hrest⟩
    intro p' hp'
    rcases List.mem_cons.mp hp' with rfl | hp'
    · exact Nat.le_of_eq hstart.symm
    · exact (Nat.le_add_right o p.2).trans (ih hrest p' hp')

theorem Tiles.length_le (h : Tiles m o ps e) : ∀ p ∈ ps, p.2 ≤ m := by
  induction ps generalizing o with
  | nil =>
    intro p hp
    cases hp
  | cons p ps ih =>
    rcases h with ⟨hstart, hp, hpm, hrest⟩
    intro p' hp'
    rcases List.mem_cons.mp hp' with rfl | hp'
    · exact hpm
    · exact ih hrest p' hp'

theorem Tiles.pairwise (h : Tiles m o ps e) : ps.Pairwise fun p p' => p.1 + p.2 ≤ p'.1 := by
  induction ps generalizing o with
  | nil => exact List.Pairwise.nil
  | cons p ps ih =>
    rcases h with ⟨rfl, hp, hpm, hrest⟩
    exact List.Pairwise.cons hrest.le (ih hrest)

theorem tiles_range {f g : ℕ → ℕ} (h : ∀ i < n, f (i + 1) = f i + g i ∧ 1 ≤ g i ∧ g i ≤ m) :
    Tiles m (f 0) ((List.range n).map fun i => (f i, g i)) (f n) := by
  induction n with
  | zero => rfl
  | succ n ih =>
    rcases h n (Nat.lt_succ_self n) with ⟨hnext, hpos, hle⟩
    rw [List.range_succ, List.map_append, hnext]
    exact (ih fun i hi => h i (Nat.lt_succ_of_lt hi)).concat hpos hle

/-- The same for ranges that may be empty. -/
def Adjoin (m : ℕ) : ℕ → List (ℕ × ℕ) → ℕ → Prop
  | o, [], e => o = e
  | o, p :: ps, e => p.1 = o ∧ p.2 ≤ m ∧ Adjoin m (o + p.2) ps e

theorem Adjoin.concat {e n : ℕ} (h : Adjoin m o ps e) (hle : n ≤ m) :
    Adjoin m o (ps ++ [(e, n)]) (e + n) := by
  induction ps generalizing o with
  | nil =>
    rw [show o = e from h]
    exact ⟨rfl, hle, rfl⟩
  | cons p ps ih => exact ⟨h.1, h.2.1, ih h.2.2⟩

section

variable (h : Adjoin m o ps e)
include h

theorem Adjoin.start_le : o ≤ e := by
  induction ps generalizing o with
  | nil => exact Nat.le_of_eq h
  | cons p ps ih => exact Nat.le_trans (Nat.le_add_right o p.2) (ih h.2.2)

theorem Adjoin.stop_eq : e = o + (ps.map Prod.snd).sum := by
  induction ps generalizing o with
  | nil => exact (show o = e from h).symm
  | cons p ps ih => rw [ih h.2.2, List.map_cons, List.sum_cons, Nat.add_assoc]

theorem Adjoin.end_le : ∀ p ∈ ps, p.1 + p.2 ≤ e := by
  induction ps generalizing o with
  | nil =>
    intro p hp
    cases hp
  | cons p ps ih =>
    rcases h with ⟨rfl, -, hrest⟩
    intro q hq
    rcases List.mem_cons.mp hq with rfl | hq
    · exact hrest.start_le
    · exact ih hrest q hq

theorem Adjoin.exists_mem {b : ℕ} (hle : o ≤ b)
    (hlt : b < e) : ∃ p ∈ ps, p.1 ≤ b ∧ b < p.1 + p.2 := by
  induction ps generalizing o with
  | nil =>
    rw [show o = e from h] at hle
    omega
  | cons p ps ih =>
    rcases h with ⟨rfl, -, hrest⟩
    by_cases hin : b < p.1 + p.2
    · exact ⟨p, List.mem_cons_self, hle, hin⟩
    · rcases ih hrest (by omega) with ⟨q, hq, hqb⟩
      exact ⟨q, List.mem_cons_of_mem _ hq, hqb⟩

theorem Adjoin.countP (b : ℕ) :
    ps.countP (fun p => p.1 ≤ b ∧ b < p.1 + p.2) = if o ≤ b ∧ b < e then 1 else 0 := by
  induction ps generalizing o with
  | nil =>
    rw [show o = e from h, if_neg (by omega)]
    rfl
  | cons p ps ih =>
    rcases h with ⟨rfl, -, hrest⟩
    have hle := hrest.start_le
    rw [List.countP_cons, ih hrest]
    simp only [decide_eq_true_eq]
    split_ifs <;> omega

end

/-! ### Two ranges -/

/-- The bytes of one region written to the start of another. -/
def copied (p q : ℕ × ℕ) : List (ℕ × ℕ) := (List.range p.2).map fun t => (p.1 + t, q.1 + t)

@[simp] theorem length_copied (p q : ℕ × ℕ) : (copied p q).length = p.2 := by
  rw [copied, List.length_map, List.length_range]

theorem fits_of_spans (hs : Spans m s n o) (hr : Spans m r n o) (hsr : s ≤ r) :
    ∀ p ∈ (pieces m s n o).zip (pieces m r n o), p.1.1 = p.2.1 ∧ p.1.2 ≤ p.2.2 := by
  induction n generalizing o with
  | zero => exact absurd hs.pos (by decide)
  | succ n ih =>
    intro p hp
    rw [pieces, pieces, List.zip_cons_cons] at hp
    rcases List.mem_cons.mp hp with rfl | hp
    · exact ⟨rfl, by simp only; omega⟩
    · cases n with
      | zero => cases hp
      | succ n =>
        rcases hs.next with ⟨hmin, hnext⟩
        rcases hr.next with ⟨hmin', hnext'⟩
        rw [hmin, hmin'] at hp
        exact ih hnext hnext' p hp

/-- Copying piece by piece copies the range. -/
theorem copied_pieces (hs : Spans m s n o) (hr : Spans m r n o) :
    ((pieces m s n o).zip (pieces m r n o)).flatMap (fun p => copied p.1 p.2) =
      copied (o, s - o) (o, r - o) := by
  induction n generalizing o with
  | zero => exact absurd hs.pos (by decide)
  | succ n ih =>
    rw [pieces, pieces, List.zip_cons_cons, List.flatMap_cons]
    cases n with
    | zero =>
      rw [hs.last, pieces, List.zip_nil_left, List.flatMap_nil, List.append_nil]
      rfl
    | succ n =>
      rcases hs.next with ⟨hmin, hnext⟩
      rcases hr.next with ⟨hmin', hnext'⟩
      have hlt := hnext.lt
      have hsplit : s - o = m + (s - (o + m)) := by omega
      rw [hmin, hmin', ih hnext hnext']
      simp only [copied]
      rw [hsplit, List.range_add, List.map_append, List.map_map]
      congr 1
      apply List.map_congr_left
      intro t _
      simp only [Function.comp_apply, Nat.add_assoc]

/-! ### Lists of lists -/

theorem zip_flatMap {f : α → List γ} {g : β → List δ} {as : List α} {bs : List β}
    (h : ∀ p ∈ as.zip bs, (f p.1).length = (g p.2).length) :
    (as.flatMap f).zip (bs.flatMap g) = (as.zip bs).flatMap fun p => (f p.1).zip (g p.2) := by
  induction as generalizing bs with
  | nil => rw [List.flatMap_nil, List.zip_nil_left, List.zip_nil_left, List.flatMap_nil]
  | cons a as ih =>
    cases bs with
    | nil => rw [List.flatMap_nil, List.zip_nil_right, List.zip_nil_right, List.flatMap_nil]
    | cons b bs =>
      rw [List.zip_cons_cons] at h ⊢
      rw [List.flatMap_cons, List.flatMap_cons, List.flatMap_cons,
        List.zip_append (h (a, b) List.mem_cons_self), ih fun p hp => h p (List.mem_cons_of_mem _ hp)]

theorem zip_prefix_zip {as as' : List α} {bs bs' : List β} (ha : as <+: as') (hb : bs <+: bs') :
    as.zip bs <+: as'.zip bs' := by
  induction as generalizing as' bs bs' with
  | nil => simp
  | cons a as ih =>
    rcases ha with ⟨t, rfl⟩
    cases bs with
    | nil => simp
    | cons b bs =>
      rcases hb with ⟨u, rfl⟩
      rw [List.cons_append, List.cons_append, List.zip_cons_cons, List.zip_cons_cons,
        List.cons_prefix_cons]
      exact ⟨rfl, ih (List.prefix_append _ _) (List.prefix_append _ _)⟩

theorem sum_take_le_iff {ns : List ℕ} (hpos : ∀ x ∈ ns, 1 ≤ x) {k l : ℕ} (hk : k ≤ ns.length) :
    (ns.take k).sum ≤ (ns.take l).sum ↔ k ≤ l := by
  induction ns generalizing k l with
  | nil =>
    rw [List.length_nil, Nat.le_zero] at hk
    simp [hk]
  | cons x ns ih =>
    have hx := hpos x List.mem_cons_self
    have hrest := fun y hy => hpos y (List.mem_cons_of_mem _ hy)
    cases k with
    | zero => simp
    | succ k =>
      cases l with
      | zero => simp; omega
      | succ l =>
        rw [List.take_succ_cons, List.take_succ_cons, List.sum_cons, List.sum_cons,
          Nat.add_le_add_iff_left, ih hrest (Nat.le_of_succ_le_succ hk), Nat.succ_le_succ_iff]

theorem take_flatMap (f : α → List γ) (as : List α) (k : ℕ) :
    (as.flatMap f).take ((as.take k).map fun a => (f a).length).sum = (as.take k).flatMap f := by
  have hsplit : as.flatMap f = (as.take k).flatMap f ++ (as.drop k).flatMap f := by
    rw [← List.flatMap_append, List.take_append_drop]
  rw [hsplit, ← List.length_flatMap, List.take_left]

theorem prefix_concat {as bs : List α} {a : α} (h : as <+: bs) (ha : bs[as.length]? = some a) :
    as ++ [a] <+: bs := by
  rcases h with ⟨t, rfl⟩
  cases t with
  | nil => simp at ha
  | cons b t =>
    simp at ha
    exact ⟨t, by rw [ha, List.append_assoc]; rfl⟩

/-- The parts of items with distinct names lie one behind the other: those of an item are gone when
all up to its last have been dropped. -/
theorem count_drop_parts [DecidableEq α] {ps : List (α × ℕ)} (hnodup : (ps.map Prod.fst).Nodup)
    (hpos : ∀ p ∈ ps, 1 ≤ p.2) {k d : ℕ} {p : α × ℕ} (hp : ps[k]? = some p) :
    ((ps.flatMap fun p => List.replicate p.2 p.1).drop d).count p.1 = 0 ↔
      ((ps.take (k + 1)).map Prod.snd).sum ≤ d := by
  induction ps generalizing k d with
  | nil => cases hp
  | cons x ps ih =>
    rw [List.map_cons, List.nodup_cons] at hnodup
    have hrest := fun y hy => hpos y (List.mem_cons_of_mem _ hy)
    rw [List.flatMap_cons, List.drop_append, List.length_replicate, List.drop_replicate,
      List.count_append, List.take_succ_cons, List.map_cons, List.sum_cons]
    cases k with
    | zero =>
      rw [List.getElem?_cons_zero, Option.some.injEq] at hp
      subst hp
      have hnone : ((ps.flatMap fun p => List.replicate p.2 p.1).drop (d - x.2)).count x.1 = 0 := by
        rw [List.count_eq_zero]
        intro hmem
        rcases List.mem_flatMap.mp (List.mem_of_mem_drop hmem) with ⟨y, hy, hxy⟩
        exact hnodup.1 ((List.eq_of_mem_replicate hxy) ▸ List.mem_map_of_mem hy)
      rw [hnone, List.count_replicate_self]
      simp
      omega
    | succ k =>
      rw [List.getElem?_cons_succ] at hp
      have hmem := List.mem_of_getElem? hp
      have hne : x.1 ≠ p.1 := by
        intro heq
        exact hnodup.1 (heq ▸ List.mem_map_of_mem hmem)
      have hone : 1 ≤ ((ps.take (k + 1)).map Prod.snd).sum := by
        have hin : p ∈ ps.take (k + 1) := by
          rw [List.mem_take_iff_getElem]
          rcases List.getElem?_eq_some_iff.mp hp with ⟨hlt, heq⟩
          exact ⟨k, by omega, heq⟩
        exact (hrest p hmem).trans (List.single_le_sum (by simp) _ (List.mem_map_of_mem hin))
      rw [List.count_replicate, if_neg (by simpa using hne), Nat.zero_add, ih hnodup.2 hrest hp]
      omega

end TorchComms.Foundation

/-! ## A memory in blocks

A memory is a function of the address. Copies of whole blocks of one size leave the other blocks
alone.
-/
namespace TorchComms.Foundation

variable {β : Type*}

/-- Copy `size` cells of `src` to the address `off`. -/
def blit (m : ℕ → β) (off size : ℕ) (src : ℕ → β) : ℕ → β :=
  fun x => if off ≤ x ∧ x < off + size then src (x - off) else m x

/-- The block `b` of a memory in blocks of the size holds `v`. -/
def BlockIs (m : ℕ → β) (size b : ℕ) (v : ℕ → β) : Prop := ∀ i < size, m (b * size + i) = v i

variable {m src v : ℕ → β} {size b b' : ℕ}

theorem blockIs_blit (h : ∀ i < size, src i = v i) : BlockIs (blit m (b * size) size src) size b v := by
  intro i hi
  rw [blit, if_pos (by omega), Nat.add_sub_cancel_left]
  exact h i hi

variable {i : ℕ}

theorem block_outside (hi : i < size) (hne : b ≠ b') :
    ¬ (b' * size ≤ b * size + i ∧ b * size + i < b' * size + size) := by
  rcases Nat.lt_or_gt_of_ne hne with hlt | hgt
  · have hle := Nat.mul_le_mul_right size hlt
    rw [Nat.succ_mul] at hle
    omega
  · have hle := Nat.mul_le_mul_right size hgt
    rw [Nat.succ_mul] at hle
    omega

theorem BlockIs.blit_of_ne (h : BlockIs m size b v) (hne : b ≠ b') (src : ℕ → β) :
    BlockIs (blit m (b' * size) size src) size b v := by
  intro i hi
  rw [blit, if_neg (block_outside hi hne)]
  exact h i hi

theorem cell_lt {i n : ℕ} (hb : b < n) (hi : i < size) : b * size + i < n * size := by
  have hle := Nat.mul_le_mul_right size hb
  rw [Nat.succ_mul] at hle
  omega

theorem cell_div (hi : i < size) : (b * size + i) / size = b := by
  rw [Nat.mul_comm, Nat.mul_add_div (Nat.zero_lt_of_lt hi), Nat.div_eq_of_lt hi, Nat.add_zero]

theorem cell_mod (hi : i < size) : (b * size + i) % size = i := by
  rw [Nat.mul_comm, Nat.mul_add_mod, Nat.mod_eq_of_lt hi]

theorem cell_inj {i i' : ℕ} (hi : i < size) (hi' : i' < size) :
    b * size + i = b' * size + i' ↔ b = b' ∧ i = i' := by
  constructor
  · intro h
    have hb : b = b' := by
      by_contra hne
      apply block_outside hi hne
      omega
    subst hb
    exact ⟨rfl, Nat.add_left_cancel h⟩
  · rintro ⟨rfl, rfl⟩
    rfl

end TorchComms.Foundation
