import TorchComms.Algos.MultiPutSlots
import Mathlib.Algebra.Order.BigOperators.Group.Finset

/-! # What the elements do

The sums of the copies, the elements that the host sees complete, and the notifications that a wait
has taken.
-/
namespace TorchComms.Algos.MultiPut

open Function Relation Gpe

variable {G : Group} {r i j g : ℕ} {d : Side} {e : KernelElem} {b : Block} {p : Point}

theorem Group.ngroups_of_mem (h : e ∈ G.list r d) : e.ngroups = G.getNumGroups e.nbytes := by
  obtain ⟨op, -, hop⟩ := List.mem_filterMap.1 h
  split_ifs at hop
  rw [← Option.some.inj hop]
  rfl

theorem Point.walked_le_copied (n : Side → ℕ) (p : Point) : p.walked n .put ≤ p.copied n := by
  rcases p with ⟨_ | _, _⟩ | _ | _ | _ | _ | ⟨_ | _⟩ | ⟨_ | _⟩ | ⟨_ | _⟩ | _ <;>
    simp [Point.walked, Point.copied]

theorem Point.walked_le_taken (n : Side → ℕ) (j : ℕ) (p : Point) :
    p.walked n .wait ≤ p.taken n j := by
  rcases p with ⟨_ | _, _⟩ | _ | _ | _ | _ | ⟨_ | _⟩ | ⟨_ | _⟩ | ⟨_ | _⟩ | _ <;>
    simp [Point.walked, Point.taken]
  split_ifs <;> omega

section Matching

variable {α : Type*} {f : α → Bool} {l : List α} {a : α}

theorem filter_take (f : α → Bool) (l : List α) (i : ℕ) :
    (l.take i).filter f = (l.filter f).take ((l.take i).countP f) := by
  have hsplit : l.filter f = (l.take i).filter f ++ (l.drop i).filter f := by
    rw [← List.filter_append, List.take_append_drop]
  rw [hsplit, List.countP_eq_length_filter, List.take_left]

theorem getElem?_filter (h : l[i]? = some a) (ha : f a = true) :
    (l.filter f)[(l.take i).countP f]? = some a := by
  have hsplit : l.filter f = (l.take i).filter f ++ (l.drop i).filter f := by
    rw [← List.filter_append, List.take_append_drop]
  have hdrop : l.drop i = a :: l.drop (i + 1) := by
    obtain ⟨hlt, rfl⟩ := List.getElem?_eq_some_iff.1 h
    exact List.drop_eq_getElem_cons hlt
  rw [hsplit, List.countP_eq_length_filter, List.getElem?_append_right (Nat.le_refl _),
    Nat.sub_self, hdrop, List.filter_cons_of_pos ha, List.getElem?_cons_zero]

theorem Group.countP_uses (a x g : ℕ) (d : Side) (i : ℕ) :
    ((G.list a d).take i).countP (KernelElem.uses x g) =
      ((((G.list a d).filter (·.peer = x)).map fun e => (e.nbytes, e.posted)).take
        (((G.list a d).take i).countP (·.peer = x))).countP
          fun y => y.2 && g < G.getNumGroups y.1 := by
  rw [← List.map_take, ← filter_take, List.countP_map, List.countP_filter]
  refine List.countP_congr ?_
  intro e he
  simp only [KernelElem.uses, Bool.and_eq_true, decide_eq_true_eq, Function.comp_apply,
    Group.ngroups_of_mem (List.mem_of_mem_take he)]
  tauto

end Matching

namespace Kernels

variable {s s' : Kernels}

theorem Match.agree {a p b q : ℕ} {e e' : KernelElem} (h : Match G a p b q e e')
    (hmatched : G.Matched) : (e.nbytes, e.posted) = (e'.nbytes, e'.posted) := by
  have hput := getElem?_filter (f := fun e : KernelElem => e.peer = b) h.put (by simp [h.peer])
  have hwait := getElem?_filter (f := fun e : KernelElem => e.peer = a) h.wait (by simp [h.peer'])
  have hmap := congrArg (·[((G.list a .put).take p).countP (fun e => e.peer = b)]?) (hmatched a b)
  simp only [List.getElem?_map, hput] at hmap
  rw [h.ordinal, hwait] at hmap
  exact Option.some.inj hmap

theorem Match.countP {a p b q : ℕ} {e e' : KernelElem} (h : Match G a p b q e e')
    (hmatched : G.Matched) (g : ℕ) : ((G.list a .put).take p).countP (KernelElem.uses b g) =
      ((G.list b .wait).take q).countP (KernelElem.uses a g) := by
  rw [Group.countP_uses, Group.countP_uses, h.ordinal, hmatched a b]

theorem reachable_words_tokens (h : Reachable G (fun s op => s.Meets op) s) :
    Words G s ∧ Tokens G s := by
  induction h with
  | init => exact ⟨words_init, tokens_init⟩
  | step h hstep hop ih => exact ⟨ih.1.step hstep hop, ih.2.step ih.1 hstep hop⟩

theorem stillWritten {x : ElemId} (he : (G.list x.rank x.side)[x.index]? = some e)
    (hg : g < x.side.words e) (hle : s.written x ≤ g) : s.StillWritten G x g := by
  obtain ⟨k, hk⟩ := Nat.exists_eq_add_of_le hle
  induction k generalizing s with
  | zero =>
    refine ⟨s, _, .refl, by omega, .host x e he (by omega)⟩
  | succ k ih =>
    have hstep : s.Step G (.host x) _ := .host x e he (by omega)
    obtain ⟨t, t', hreach, ht⟩ := ih (s := { s with
      status := update s.status (x, s.written x) (if e.posted then .POSTED else .REVOKED)
      written := update s.written x (s.written x + 1) }) (by simp; omega) (by simp; omega)
    exact ⟨t, t', hreach.head ⟨_, hstep⟩, ht⟩

theorem Own.polled_answered (h : Own G s b) {assigned : Bool} (hb : s.block b = .poll d i assigned)
    (he : (G.list b.rank d)[i]? = some e) (hg : b.group < d.words e) :
    Answered (s.word b d i) ∨ s.StillWritten G ⟨b.rank, d, i⟩ b.group := by
  by_cases hw : s.written ⟨b.rank, d, i⟩ ≤ b.group
  · exact .inr (stillWritten he hg hw)
  · left
    have hwalked : (s.block b).walked (G.lengths b.rank) d = i := by
      rw [hb]
      cases d <;> rfl
    have hfreed : (s.block b).freed (G.lengths b.rank) d = 0 := by
      rw [hb]
      cases d <;> rfl
    rw [h.status d i e he hg, KernelElem.wordOf, if_neg hw, hwalked, hfreed]
    split_ifs <;> simp_all [Answered]

theorem Own.done_iff (h : Own G s b) (hgroup : d = .wait → b.group = 0)
    (he : (G.list b.rank d)[i]? = some e) (hposted : e.posted = true) (hg : b.group < d.words e) :
    s.word b d i = .DONE ↔ s.Passed G b d i := by
  rw [h.status d i e he hg, KernelElem.wordOf, Passed]
  constructor
  · intro heq
    split_ifs at heq with hw hpassed
    exact hpassed
  · intro hpassed
    have hw := h.polled d i hgroup (Nat.lt_add_right _ hpassed)
    rw [if_neg (by omega), if_pos hposted, if_pos hpassed]

variable {byte : ℕ}

theorem sum_count_copyBy (r : ℕ) (hgroups : 0 < e.ngroups) (hbyte : byte < e.nbytes) :
    ∑ g ∈ Finset.range e.ngroups, (e.copyBy (G.blockDim r) g).count (byte / e.size) = 1 := by
  unfold KernelElem.copyBy KernelElem.size
  split_ifs with hwide
  · have hdvd : e.nbytes % 16 = 0 := by
      simp only [KernelElem.canCopy16, Bool.and_eq_true, decide_eq_true_eq] at hwide
      exact hwide.2
    exact sum_count_copy (G.blockDim_pos r) Nat.one_pos hgroups (by omega)
  · exact sum_count_copy (G.blockDim_pos r) (by omega) hgroups (by omega)

theorem Words.stores_le (h : Words G s) (huniform : G.Uniform)
    (he : (G.list r .put)[i]? = some e) (hbyte : byte < e.nbytes) : s.stores G r i e byte ≤ 1 := by
  have hgroups := huniform r e (List.mem_of_getElem? he)
  rw [← sum_count_copyBy (G := G) r (hgroups ▸ Group.numBlocks_pos r) hbyte, stores, hgroups]
  refine Finset.sum_le_sum fun g hg => ?_
  rw [(h.own ⟨r, g⟩ (Finset.mem_range.1 hg)).copies i e he]
  split_ifs <;> simp

theorem Words.stores_eq (h : Words G s) (huniform : G.Uniform)
    (he : (G.list r .put)[i]? = some e) (hposted : e.posted = true)
    (hbyte : byte < e.nbytes) (hpassed : ∀ g < e.ngroups, s.Passed G ⟨r, g⟩ .put i) :
    s.stores G r i e byte = 1 := by
  have hgroups := huniform r e (List.mem_of_getElem? he)
  rw [← sum_count_copyBy (G := G) r (hgroups ▸ Group.numBlocks_pos r) hbyte, stores, hgroups]
  refine Finset.sum_congr rfl fun g hg => ?_
  have hg := Finset.mem_range.1 hg
  have hcopied := Nat.lt_of_lt_of_le (hpassed g (hgroups ▸ hg)) (Point.walked_le_copied _ _)
  rw [(h.own ⟨r, g⟩ hg).copies i e he, if_pos ⟨hposted, hcopied⟩, Nat.one_mul]

theorem Gathered.lt_taken {q : ℕ} (h : s.Gathered G b q) (j : ℕ) :
    q < (s.block b).taken (G.lengths b.rank) j := by
  obtain hb | hpassed := h
  · rw [hb]
    exact Nat.lt_succ_self q
  · exact Nat.lt_of_lt_of_le hpassed (Point.walked_le_taken _ _ _)

theorem Notified.of_lt (h : i < (s.block b).notified (G.lengths b.rank)) : s.Notified G b i := by
  unfold Notified Passed
  cases hb : s.block b with
  | complete d i' =>
    cases d with
    | put =>
      rw [hb] at h
      rcases Nat.lt_succ_iff_lt_or_eq.1 h with hlt | rfl
      · exact .inr hlt
      · exact .inl rfl
    | wait =>
      rw [hb] at h
      exact .inr h
  | _ =>
    rw [hb] at h
    exact .inr h

theorem Tokens.notified (h : Tokens G s) (hmatched : G.Matched) {a p b q : ℕ} {e e' : KernelElem}
    (hmatch : Match G a p b q e e') (hposted : e'.posted = true) (hgathered : s.Gathered G ⟨b, 0⟩ q)
    (hg : g < e.ngroups) (hblock : g < G.numBlocks a) : s.Notified G ⟨a, g⟩ p := by
  refine Notified.of_lt ?_
  by_contra hle
  have hagree := hmatch.agree hmatched
  have hgroups : e.ngroups = e'.ngroups := by
    rw [Group.ngroups_of_mem (List.mem_of_getElem? hmatch.put),
      Group.ngroups_of_mem (List.mem_of_getElem? hmatch.wait), (Prod.mk.inj hagree).1]
  have huses : KernelElem.uses a g e' = true := by
    simp [KernelElem.uses, hmatch.peer', hposted, ← hgroups, hg]
  -- as many notifications were taken as waits came up to this one
  have hgets : ((G.list b .wait).take q).countP (KernelElem.uses a g) < s.gets ⟨b, a, g⟩ := by
    have hmono := ((List.take_sublist_take_left (l := G.list b .wait)
      (Nat.succ_le_of_lt (hgathered.lt_taken g))).countP_le (p := KernelElem.uses a g))
    rw [countP_take_succ hmatch.wait, if_pos huses] at hmono
    rw [h.gets]
    exact hmono
  -- and no more of them were set than puts came before the matching one
  have hsets : s.sets ⟨b, a, g⟩ ≤ ((G.list a .put).take p).countP (KernelElem.uses b g) := by
    rw [h.sets _ hblock]
    exact (List.take_sublist_take_left (Nat.not_lt.1 hle)).countP_le
  have hslots := h.slots ⟨b, a, g⟩
  rw [hmatch.countP hmatched] at hsets
  omega

/-- Rank 0 sends two messages to rank 1; a block takes a chunk of one byte. -/
def sendTwo (m n : ℕ) : Group where
  chunkSize := 1
  maxNumThreadBlocks := 8
  blockDim := fun _ => 640
  blockDim_pos := fun _ => by decide
  opGroup := fun r =>
    if r = 0 then [⟨.SEND, 1, m, true, true, false⟩, ⟨.SEND, 1, n, true, true, false⟩]
    else if r = 1 then [⟨.RECV, 0, m, true, true, false⟩, ⟨.RECV, 0, n, true, true, false⟩]
    else []

theorem matched_sendTwo {m n : ℕ} (hm : 0 < m) (hn : 0 < n) : (sendTwo m n).Matched := by
  rintro (_ | _ | a) (_ | _ | b) <;> simp [Group.list, sendTwo, Group.kernelElem, Side.opType, hm, hn]

theorem uniform_sendTwo : (sendTwo 2 2).Uniform := by
  rintro (_ | _ | r)
  · decide
  · decide
  · simp [Group.list, sendTwo]

end Kernels

end TorchComms.Algos.MultiPut
