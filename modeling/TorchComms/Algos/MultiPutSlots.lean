import TorchComms.Algos.MultiPutWords

/-! # The notification slots

A slot has been set once for each put that its sender's block has left behind, and reset once for
each wait that the receiver has. It holds a notification exactly while the one is ahead of the other.
-/
namespace TorchComms.Algos.MultiPut

open Function Gpe

namespace Point

variable (n : Side → ℕ)

/-- The number of puts that a block has notified, with those that it skipped. -/
def notified : Point → ℕ
  | complete .put i => i + 1
  | p => p.walked n .put

/-- The number of waits for which the notification of a group has been taken. -/
def taken (j : ℕ) : Point → ℕ
  | gather i ack => if ack j = .reset then i + 1 else i
  | complete .wait i => i + 1
  | p => p.walked n .wait

end Point

section Lists

variable {α : Type*} {q : α → Bool} {l : List α} {i : ℕ} {a : α}

theorem countP_take_succ (h : l[i]? = some a) :
    (l.take (i + 1)).countP q = (l.take i).countP q + if q a = true then 1 else 0 := by
  rw [List.take_add_one, h, List.countP_append, Option.toList_some, List.countP_singleton]

theorem countP_take_skip (h : l[i]? = some a) (hq : q a = false) :
    (l.take (i + 1)).countP q = (l.take i).countP q := by
  simp [countP_take_succ h, hq]

end Lists

variable {G : Group} {r i j g : ℕ} {d : Side} {e : KernelElem} {b : Block} {p : Point}

theorem Group.numBlocks_pos (r : ℕ) : 0 < G.numBlocks r := by
  unfold Group.numBlocks
  suffices h : ∀ (l : List KernelElem) (n : ℕ), 0 < n →
      0 < l.foldl (fun n e => max n e.ngroups) n from h _ _ Nat.one_pos
  intro l
  induction l with
  | nil => exact fun n hn => hn
  | cons e l ih => exact fun n hn => ih _ (Nat.lt_of_lt_of_le hn (Nat.le_max_left ..))

namespace Kernels

variable {s s' : Kernels}

structure Tokens (G : Group) (s : Kernels) : Prop where
  sets : ∀ x : Slot, x.group < G.numBlocks x.sender → s.sets x =
    ((G.list x.sender .put).take
      ((s.block ⟨x.sender, x.group⟩).notified (G.lengths x.sender))).countP
        (KernelElem.uses x.receiver x.group)
  gets : ∀ x : Slot, s.gets x =
    ((G.list x.receiver .wait).take
      ((s.block ⟨x.receiver, 0⟩).taken (G.lengths x.receiver) x.group)).countP
        (KernelElem.uses x.sender x.group)
  slots : ∀ x : Slot, s.sets x = s.gets x + if s.slot x = .NOTIFY_SET then 1 else 0
  clear : ∀ (b : Block) (i : ℕ) (e : KernelElem), s.block b = .set i →
    (G.list b.rank .put)[i]? = some e → s.slot ⟨e.peer, b.rank, b.group⟩ = .NOTIFY_RESET
  seen : ∀ (r i j : ℕ) (ack : ℕ → Ack) (e : KernelElem), s.block ⟨r, 0⟩ = .gather i ack →
    (G.list r .wait)[i]? = some e → ack j = .seen → s.slot ⟨r, e.peer, j⟩ = .NOTIFY_SET

theorem tokens_init : Tokens G (init G) := by
  constructor <;> simp [init, Point.notified, Point.taken, Point.walked]

theorem Tokens.goto (h : Tokens G s)
    (hnotified : ∀ x : ℕ, ((G.list b.rank .put).take (p.notified (G.lengths b.rank))).countP
        (KernelElem.uses x b.group) =
      ((G.list b.rank .put).take ((s.block b).notified (G.lengths b.rank))).countP
        (KernelElem.uses x b.group)) (htaken : ∀ x j : ℕ, b.group = 0 →
      ((G.list b.rank .wait).take (p.taken (G.lengths b.rank) j)).countP (KernelElem.uses x j) =
      ((G.list b.rank .wait).take ((s.block b).taken (G.lengths b.rank) j)).countP
        (KernelElem.uses x j)) (hclear : ∀ i e, p = .set i → (G.list b.rank .put)[i]? = some e →
      s.slot ⟨e.peer, b.rank, b.group⟩ = .NOTIFY_RESET)
    (hseen : ∀ i j ack e, b.group = 0 → p = .gather i ack → (G.list b.rank .wait)[i]? = some e →
      ack j = .seen → s.slot ⟨b.rank, e.peer, j⟩ = .NOTIFY_SET) : Tokens G (s.goto b p) where
  sets := by
    intro x hx
    by_cases hb : (⟨x.sender, x.group⟩ : Block) = b
    · subst hb
      rw [block_goto, hnotified]
      exact h.sets x hx
    · rw [block_goto_of_ne hb]
      exact h.sets x hx
  gets := by
    intro x
    by_cases hb : (⟨x.receiver, 0⟩ : Block) = b
    · subst hb
      rw [block_goto, htaken _ _ rfl]
      exact h.gets x
    · rw [block_goto_of_ne hb]
      exact h.gets x
  slots := h.slots
  clear := by
    intro b' i e hp he
    by_cases hb : b' = b
    · subst hb
      rw [block_goto] at hp
      exact hclear i e hp he
    · rw [block_goto_of_ne hb] at hp
      exact h.clear b' i e hp he
  seen := by
    intro r i j ack e hp he hack
    by_cases hb : (⟨r, 0⟩ : Block) = b
    · subst hb
      rw [block_goto] at hp
      exact hseen i j ack e rfl hp he hack
    · rw [block_goto_of_ne hb] at hp
      exact h.seen r i j ack e hp he hack

theorem Tokens.congr (h : Tokens G s) (hblock : s'.block = s.block) (hslot : s'.slot = s.slot)
    (hsets : s'.sets = s.sets) (hgets : s'.gets = s.gets) : Tokens G s' := by
  obtain ⟨h1, h2, h3, h4, h5⟩ := h
  constructor
  · simpa only [hblock, hsets] using h1
  · simpa only [hblock, hgets] using h2
  · simpa only [hslot, hsets, hgets] using h3
  · simpa only [hblock, hslot] using h4
  · simpa only [hblock, hslot] using h5

theorem Tokens.pass (h : Tokens G s)
    (hnotified : p.notified (G.lengths b.rank) = (s.block b).notified (G.lengths b.rank))
    (htaken : ∀ j, b.group = 0 →
      p.taken (G.lengths b.rank) j = (s.block b).taken (G.lengths b.rank) j)
    (hset : ∀ i, p ≠ .set i) (hgather : ∀ i ack j, p = .gather i ack → ack j ≠ .seen) :
    Tokens G (s.goto b p) := by
  refine h.goto ?_ ?_ ?_ ?_
  · exact fun x => by rw [hnotified]
  · exact fun x j hg => by rw [htaken j hg]
  · exact fun i e hp => absurd hp (hset i)
  · exact fun i j ack e _ hp _ hack => absurd hack (hgather i ack j hp)

theorem take_all {l : List KernelElem} {m : ℕ} (h : l.length ≤ m) : l.take m = l :=
  List.take_of_length_le h

theorem take_lengths (r : ℕ) (d : Side) : (G.list r d).take (G.lengths r d) = G.list r d :=
  List.take_of_length_le (Nat.le_refl _)

theorem uses_of_not_posted (x g : ℕ) (h : e.posted = false) : e.uses x g = false := by
  simp [KernelElem.uses, h]

variable {assigned : Bool}

theorem Tokens.skip (h : Tokens G s) (hb : s.block b = .poll d i assigned)
    (he : (G.list b.rank d)[i]? = some e) (hposted : e.posted = false) :
    Tokens G (s.goto b (.poll d (i + 1) false)) := by
  refine h.goto ?_ ?_ ?_ ?_
  · intro x
    rw [hb]
    cases d with
    | put => exact countP_take_skip he (uses_of_not_posted x _ hposted)
    | wait => rfl
  · intro x j _
    rw [hb]
    cases d with
    | put => rfl
    | wait => exact countP_take_skip he (uses_of_not_posted x _ hposted)
  · simp
  · simp

theorem Tokens.endWalk (h : Tokens G s) (hb : s.block b = .poll d i assigned)
    (he : (G.list b.rank d)[i]? = none) : Tokens G (s.goto b (.free d 0)) := by
  have hlen := List.getElem?_eq_none_iff.1 he
  refine h.goto ?_ ?_ ?_ ?_
  · intro x
    rw [hb]
    cases d with
    | put => simp only [Point.notified, Point.walked, take_lengths, take_all hlen]
    | wait => rfl
  · intro x j _
    rw [hb]
    cases d with
    | put => rfl
    | wait => simp only [Point.taken, Point.walked, take_lengths, take_all hlen]
  · simp
  · simp

variable {ack : ℕ → Ack}

section

variable (h : Tokens G s)
include h

theorem Tokens.gathered (hb : s.block b = .gather i ack)
    (he : (G.list b.rank .wait)[i]? = some e) (hack : ∀ j < e.ngroups, ack j = .reset) :
    Tokens G (s.goto b (.complete .wait i)) := by
  refine h.goto ?_ ?_ ?_ ?_
  · intro x
    rw [hb]
    rfl
  · intro x j _
    rw [hb]
    by_cases hj : j < e.ngroups
    · simp only [Point.taken, hack j hj, if_true]
    · -- the wait takes no notification of this group
      have huses : e.uses x j = false := by simp [KernelElem.uses, hj]
      simp only [Point.taken]
      split_ifs
      · rfl
      · exact countP_take_skip he huses
  · simp
  · simp

theorem Tokens.see (hb : s.block ⟨r, 0⟩ = .gather i ack)
    (he : (G.list r .wait)[i]? = some e) (hack : ack j = .waiting)
    (hslot : s.slot ⟨r, e.peer, j⟩ = .NOTIFY_SET) :
    Tokens G (s.goto ⟨r, 0⟩ (.gather i (update ack j .seen))) := by
  refine h.goto ?_ ?_ ?_ ?_
  · intro x
    rw [hb]
    rfl
  · intro x k _
    rw [hb]
    have hreset : update ack j .seen k = .reset ↔ ack k = .reset := by
      by_cases hkj : k = j
      · subst hkj
        simp [hack]
      · rw [update_of_ne hkj]
    simp only [Point.taken, hreset]
  · simp
  · intro i' k ack' e' _ hp he' hack'
    obtain ⟨rfl, rfl⟩ := Point.gather.inj hp
    rw [he, Option.some.injEq] at he'
    subst he'
    by_cases hkj : k = j
    · rwa [hkj]
    · rw [update_of_ne hkj] at hack'
      exact h.seen r i k ack e hb he hack'

theorem Tokens.set (hb : s.block b = .set i)
    (he : (G.list b.rank .put)[i]? = some e) (huses : e.uses e.peer b.group = true) :
    Tokens G { s.goto b (.complete .put i) with
      slot := update s.slot ⟨e.peer, b.rank, b.group⟩ .NOTIFY_SET
      sets := update s.sets ⟨e.peer, b.rank, b.group⟩ (s.sets ⟨e.peer, b.rank, b.group⟩ + 1) } where
  sets := by
    intro x hx
    have hold := h.sets x hx
    dsimp only [Kernels.goto]
    by_cases hblock : (⟨x.sender, x.group⟩ : Block) = b
    · subst hblock
      rw [hb] at hold
      rw [update_self]
      simp only [Point.notified, Point.walked] at hold ⊢
      by_cases hpeer : x = ⟨e.peer, x.sender, x.group⟩
      · rw [← hpeer, update_self, hold, countP_take_succ he, if_pos]
        rw [hpeer]
        exact huses
      · -- the put goes to another receiver
        have hne : e.peer ≠ x.receiver := by
          rintro heq
          apply hpeer
          rw [heq]
        rw [update_of_ne hpeer, hold, countP_take_skip he]
        simp [KernelElem.uses, hne]
    · have hne : x ≠ ⟨e.peer, b.rank, b.group⟩ := by
        rintro rfl
        exact hblock rfl
      rw [update_of_ne hblock, update_of_ne hne]
      exact hold
  gets := by
    intro x
    have hold := h.gets x
    dsimp only [Kernels.goto]
    by_cases hblock : (⟨x.receiver, 0⟩ : Block) = b
    · subst hblock
      rw [hb] at hold
      rw [update_self]
      exact hold
    · rw [update_of_ne hblock]
      exact hold
  slots := by
    intro x
    have hold := h.slots x
    dsimp only [Kernels.goto]
    by_cases hx : x = ⟨e.peer, b.rank, b.group⟩
    · subst hx
      have hclear := h.clear b i e hb he
      simp only [hclear, reduceCtorEq, if_false] at hold
      simp [hold]
    · simpa only [update_of_ne hx] using hold
  clear := by
    intro b' i' e' hp he'
    by_cases hblock : b' = b
    · subst hblock
      simp [Kernels.goto] at hp
    · have hp' : s.block b' = .set i' := by simpa [Kernels.goto, update_of_ne hblock] using hp
      have hne : (⟨e'.peer, b'.rank, b'.group⟩ : Slot) ≠ ⟨e.peer, b.rank, b.group⟩ := by
        intro heq
        simp only [Slot.mk.injEq] at heq
        exact hblock (by cases b; cases b'; simp_all)
      exact (update_of_ne hne ..).trans (h.clear b' i' e' hp' he')
  seen := by
    intro r i' j ack e' hp he' hack
    have hp' : s.block ⟨r, 0⟩ = .gather i' ack := by
      by_cases hblock : (⟨r, 0⟩ : Block) = b
      · subst hblock
        simp [Kernels.goto] at hp
      · simpa [Kernels.goto, update_of_ne hblock] using hp
    have hold := h.seen r i' j ack e' hp' he' hack
    simp only [update_apply]
    split_ifs
    · rfl
    · exact hold

theorem Tokens.take (hb : s.block ⟨r, 0⟩ = .gather i ack)
    (he : (G.list r .wait)[i]? = some e) (huses : e.uses e.peer j = true) (hack : ack j = .seen) :
    Tokens G { s.goto ⟨r, 0⟩ (.gather i (update ack j .reset)) with
      slot := update s.slot ⟨r, e.peer, j⟩ .NOTIFY_RESET
      gets := update s.gets ⟨r, e.peer, j⟩ (s.gets ⟨r, e.peer, j⟩ + 1) } where
  sets := by
    intro x hx
    have hold := h.sets x hx
    dsimp only [Kernels.goto]
    by_cases hblock : (⟨x.sender, x.group⟩ : Block) = ⟨r, 0⟩
    · rw [hblock, update_self]
      rw [hblock, hb] at hold
      exact hold
    · rw [update_of_ne hblock]
      exact hold
  gets := by
    intro x
    have hold := h.gets x
    dsimp only [Kernels.goto]
    by_cases hblock : (⟨x.receiver, 0⟩ : Block) = ⟨r, 0⟩
    · obtain ⟨rfl, -⟩ := Block.mk.injEq .. ▸ hblock
      rw [hb] at hold
      rw [update_self]
      simp only [Point.taken, update_apply] at hold ⊢
      by_cases hj : x.group = j
      · subst hj
        simp only [hack, reduceCtorEq, if_false] at hold
        simp only [if_true]
        by_cases hpeer : x = ⟨x.receiver, e.peer, x.group⟩
        · rw [← hpeer, if_pos rfl, hold, countP_take_succ he, if_pos]
          rw [hpeer]
          exact huses
        · -- the notification comes from another sender
          have hne : e.peer ≠ x.sender := by
            rintro heq
            apply hpeer
            rw [heq]
          rw [if_neg hpeer, hold, countP_take_skip he]
          simp [KernelElem.uses, hne]
      · have hne : x ≠ ⟨x.receiver, e.peer, j⟩ := by
          intro heq
          rw [heq] at hj
          exact hj rfl
        rw [if_neg hj, if_neg hne]
        exact hold
    · have hne : x ≠ ⟨r, e.peer, j⟩ := by
        rintro rfl
        exact hblock rfl
      rw [update_of_ne hblock, update_of_ne hne]
      exact hold
  slots := by
    intro x
    have hold := h.slots x
    dsimp only [Kernels.goto]
    by_cases hx : x = ⟨r, e.peer, j⟩
    · subst hx
      have hseen := h.seen r i j ack e hb he hack
      simp only [hseen, if_true] at hold
      simp [hold]
    · simpa only [update_of_ne hx] using hold
  clear := by
    intro b' i' e' hp he'
    have hp' : s.block b' = .set i' := by
      by_cases hblock : b' = ⟨r, 0⟩
      · subst hblock
        simp [Kernels.goto] at hp
      · simpa [Kernels.goto, update_of_ne hblock] using hp
    have hold := h.clear b' i' e' hp' he'
    simp only [update_apply]
    split_ifs
    · rfl
    · exact hold
  seen := by
    intro r' i' k ack' e' hp he' hack'
    by_cases hblock : (⟨r', 0⟩ : Block) = ⟨r, 0⟩
    · obtain ⟨rfl, -⟩ := Block.mk.injEq .. ▸ hblock
      obtain ⟨rfl, rfl⟩ := Point.gather.inj ((update_self ..).symm.trans hp)
      rw [he, Option.some.injEq] at he'
      subst he'
      have hkj : k ≠ j := by
        rintro rfl
        simp at hack'
      rw [update_of_ne hkj] at hack'
      exact (update_of_ne (by simpa using hkj) ..).trans (h.seen r' i k ack e hb he hack')
    · have hp' : s.block ⟨r', 0⟩ = .gather i' ack' := by
        simpa [Kernels.goto, update_of_ne hblock] using hp
      have hne : (⟨r', e'.peer, k⟩ : Slot) ≠ ⟨r, e.peer, j⟩ := by
        intro heq
        simp only [Slot.mk.injEq] at heq
        exact hblock (by rw [heq.1])
      exact (update_of_ne hne ..).trans (h.seen r' i' k ack' e' hp' he' hack')

theorem Tokens.step {op : Op} (hwords : Words G s) (hstep : s.Step G op s')
    (hop : s.Meets op) : Tokens G s' := by
  cases hstep with
  | host x e he hw => exact h.congr rfl rfl rfl rfl
  | spin b d i assigned aborted e hg hb he hval =>
    refine h.pass ?_ ?_ (by simp) (by simp)
    · rw [hb]
      cases d <;> rfl
    · rw [hb]
      exact fun j _ => by cases d <;> rfl
  | skip b d i assigned aborted e hg hb he hval hskip =>
    exact h.skip hb he ((hwords.own b hg).revoked hb hop he hval hskip)
  | enter b d i assigned aborted e hg hb he hval hrevoked hgroup =>
    refine h.pass ?_ ?_ ?_ ?_
    · rw [hb]
      cases d <;> rfl
    · rw [hb]
      exact fun j _ => by cases d <;> rfl
    · cases d <;> simp [work]
    · cases d with
      | put => simp [work]
      | wait =>
        rintro i' ack j heq
        obtain ⟨-, rfl⟩ := Point.gather.inj heq
        simp
  | endWalk b d i assigned aborted hg hb he => exact h.endWalk hb he
  | endFree b d i aborted hg hb he =>
    cases d with
    | wait =>
      refine h.pass ?_ ?_ (by simp [afterList]) (by simp [afterList])
      · rw [hb]
        rfl
      · rw [hb]
        exact fun _ _ => rfl
    | put =>
      by_cases hzero : b.group = 0
      · rw [afterList, if_pos hzero]
        refine h.pass ?_ ?_ (by simp) (by simp)
        · rw [hb]
          rfl
        · rw [hb]
          exact fun _ _ => rfl
      · rw [afterList, if_neg hzero]
        refine h.pass ?_ (fun _ hg => absurd hg hzero) (by simp) (by simp)
        rw [hb]
        rfl
  | load b d i aborted e hg hb he =>
    refine h.pass ?_ ?_ ?_ ?_
    · rw [hb]
      split_ifs <;> cases d <;> rfl
    · rw [hb]
      intro j _
      split_ifs <;> cases d <;> rfl
    · split_ifs <;> simp
    · split_ifs <;> simp
  | notify b i aborted e hg hb he hslot =>
    refine h.goto ?_ ?_ ?_ (by simp)
    · exact fun x => by rw [hb]; rfl
    · exact fun x j _ => by rw [hb]; rfl
    · intro i' e' hp he'
      obtain rfl := Point.set.inj hp
      rw [he, Option.some.injEq] at he'
      rwa [← he']
  | gathered b i ack aborted e hg hb he hack => exact h.gathered hb he hack
  | see r j i ack e hb he hj hack hslot => exact h.see hb he hack hslot
  | copy b i aborted hg hb =>
    have hpass : Tokens G (s.goto b (.notify i)) := by
      refine h.pass ?_ ?_ (by simp) (by simp)
      · rw [hb]
        rfl
      · rw [hb]
        exact fun _ _ => rfl
    exact hpass.congr rfl rfl rfl rfl
  | set b i aborted e hg hb he =>
    have hplace := (hwords.own b hg).place
    rw [hb] at hplace
    obtain ⟨e', he', hposted, hgroup⟩ := hplace
    rw [he, Option.some.injEq] at he'
    subst he'
    exact h.set hb he (by simp [KernelElem.uses, hposted, hgroup])
  | take r j i ack e hb he hj hack =>
    have hplace := (hwords.own ⟨r, 0⟩ (Group.numBlocks_pos r)).place
    rw [hb] at hplace
    obtain ⟨-, e', he', hposted⟩ := hplace
    rw [he, Option.some.injEq] at he'
    subst he'
    exact h.take hb he (by simp [KernelElem.uses, hposted, hj]) hack
  | complete b d i aborted hg hb =>
    have hpass : Tokens G (s.goto b (.poll d (i + 1) false)) := by
      refine h.pass ?_ ?_ (by simp) (by simp)
      · rw [hb]
        cases d <;> rfl
      · rw [hb]
        exact fun j _ => by cases d <;> rfl
    exact hpass.congr rfl rfl rfl rfl
  | reset b d i aborted hg hb =>
    have hpass : Tokens G (s.goto b (.free d (i + 1))) := by
      refine h.pass ?_ ?_ (by simp) (by simp)
      · rw [hb]
        cases d <;> rfl
      · rw [hb]
        exact fun j _ => by cases d <;> rfl
    exact hpass.congr rfl rfl rfl rfl

end

end Kernels

end TorchComms.Algos.MultiPut
