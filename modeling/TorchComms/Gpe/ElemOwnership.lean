import TorchComms.Gpe.KernelElemPool

/-! # The owner of a kernel element

The elements of an operation stay linked in the order of its list, so that its blocks meet no other
elements. The condition on reclaim keeps the elements with a user out of the free stack.
-/
namespace TorchComms.Gpe.ElemPool

open Foundation Function

/-- The request that the submitting thread works for. -/
def MainPhase.request : MainPhase → Option Request
  | idle => none
  | reclaiming req _ _ | resetting req _ _ => req
  | allocating req _ | marking req _ _ => some req

/-- The submitting thread has an element in its hands. -/
def MainPhase.holds : MainPhase → Bool
  | resetting _ _ _ | marking _ _ _ => true
  | _ => false

namespace Elems

variable {kernel : ℕ → KernelConfig} {capacity : ℕ} {s s' : Elems} {o x g : ℕ}

structure Inv (kernel : ℕ → KernelConfig) (capacity : ℕ) (s : Elems) : Prop where
  keeps : s.pool.Keeps (· < capacity) (s.Live kernel)
  building : ∀ o x, s.stage o = .building → s.host (o, x) = .held
  request : ∀ req, s.main.request = some req → s.stage req.op = .building
  held : s.main.holds = false → s.pool.held = none
  fresh : ∀ x, x ∈ s.pool.free ∨ s.pool.held = some x → s.next x = none
  linked : ∀ o, s.stage o = .building ∨ s.Walked kernel o →
    Linked s.next (s.elems o) ∧ (s.elems o).Nodup
  cursor : ∀ o g x, s.stage o = .launched → g < (kernel o).gridDim →
    (s.block (o, g)).cursor = some x → x ∈ s.elems o

theorem inv_init : Inv kernel capacity (init capacity) where
  keeps := by
    constructor
    · simpa [init, Pool.all] using List.nodup_range
    · simp [init, Pool.all]
    · simp [init, Live]
    · simp [init, Live]
  building := by simp [init]
  request := by simp [init, MainPhase.request]
  held := by simp [init]
  fresh := by simp [init]
  linked := by simp [init, Linked]
  cursor := by simp [init]

theorem Inv.live (h : Inv kernel capacity s) (ho : s.stage o = .building ∨ s.Walked kernel o)
    (hx : x ∈ s.elems o) : s.Live kernel o x := by
  refine ⟨hx, ?_⟩
  rcases ho with hstage | hwalked
  · left
    rw [h.building o x hstage]
    simp
  · exact .inr hwalked

theorem Inv.main (h : Inv kernel capacity s) (hpool : s'.pool = s.pool) (hnext : s'.next = s.next)
    (helems : s'.elems = s.elems) (hstage : s'.stage = s.stage) (hhost : s'.host = s.host)
    (hblock : s'.block = s.block)
    (hrequest : ∀ req, s'.main.request = some req → s.stage req.op = .building)
    (hheld : s'.main.holds = false → s.pool.held = none) : Inv kernel capacity s' := by
  have hlive : ∀ o x, s'.Live kernel o x ↔ s.Live kernel o x := by
    simp [Live, Walked, helems, hstage, hhost, hblock]
  constructor
  · rw [hpool]
    exact h.keeps.mono fun o x => (hlive o x).1
  · simpa only [hstage, hhost] using h.building
  · simpa only [hstage] using hrequest
  · simpa only [hpool] using hheld
  · simpa only [hpool, hnext] using h.fresh
  · simpa only [Walked, hnext, helems, hstage, hblock] using h.linked
  · simpa only [helems, hstage, hblock] using h.cursor

variable {req : Option Request}

theorem Inv.erase (h : Inv kernel capacity s) {k i : ℕ}
    (hmain : s.main = .reclaiming req k i) (hx : s.pool.inuse[k]? = some x)
    (hquiet : ∀ o, ¬s.Live kernel o x) :
    Inv kernel capacity { s with
      pool := s.pool.takeBack x k
      ngroups := update s.ngroups x 0
      next := update s.next x none
      main := .resetting req k 0 } where
  keeps := by
    have hheld : s.pool.held = none := h.held (by simp [hmain, MainPhase.holds])
    exact h.keeps.takeBack hx hheld hquiet
  __ := h
  request := by
    intro q hq
    exact h.request q (by rwa [hmain])
  held := by simp [MainPhase.holds]
  fresh := by
    intro y hy
    simp only [update_apply]
    split_ifs with hyx
    · rfl
    · rcases hy with hfree | hheld
      · exact h.fresh y (.inl hfree)
      · exact absurd (Option.some.inj hheld).symm hyx
  linked := by
    intro o ho
    obtain ⟨hlinked, hnodup⟩ := h.linked o ho
    refine ⟨hlinked.congr ?_, hnodup⟩
    intro y hy
    refine update_of_ne ?_ ..
    rintro rfl
    exact hquiet o (h.live ho hy)

theorem link_of_ne {next : ℕ → Option ℕ} {l : List ℕ} {y : ℕ}
    (h : ∀ z, l.getLast? = some z → y ≠ z) : link next l x y = next y := by
  unfold link
  cases hl : l.getLast? with
  | none => rfl
  | some z => exact update_of_ne (h z hl) ..

section

variable (h : Inv kernel capacity s)
include h

theorem Inv.handOut {req : Request} {left i : ℕ}
    (hmain : s.main = .marking req left i) (hx : s.pool.held = some x) :
    Inv kernel capacity { s with
      pool := s.pool.handOut x req.op
      next := link s.next (s.elems req.op) x
      elems := update s.elems req.op (s.elems req.op ++ [x])
      main := .allocating req left } := by
  have hbuilding : s.stage req.op = .building := h.request req (by simp [hmain, MainPhase.request])
  have hout : ∀ o, s.stage o = .building ∨ s.Walked kernel o → x ∉ s.elems o := fun o ho hmem =>
    h.keeps.not_held hx (h.keeps.inuse o x (h.live ho hmem))
  -- the last element of the operation has no other user
  have hlast : ∀ y, (s.elems req.op).getLast? = some y → s.Live kernel req.op y := fun y hy =>
    h.live (.inl hbuilding) (List.mem_of_getLast? hy)
  refine ⟨?_, h.building, ?_, ?_, ?_, ?_, ?_⟩
  · refine h.keeps.handOut hx ?_
    rintro o y ⟨hy, hlive⟩
    dsimp only at hy
    by_cases ho : o = req.op
    · subst ho
      rw [update_self, List.mem_append, List.mem_singleton] at hy
      rcases hy with hy | rfl
      · exact .inl ⟨hy, hlive⟩
      · exact .inr ⟨rfl, rfl⟩
    · rw [update_of_ne ho] at hy
      exact .inl ⟨hy, hlive⟩
  · intro q hq
    rw [← Option.some.inj hq]
    exact hbuilding
  · exact fun _ => rfl
  · rintro y (hfree | hheld)
    · have hold := h.fresh y (.inl hfree)
      refine (link_of_ne fun z hz => ?_).trans hold
      rintro rfl
      exact h.keeps.not_free (h.keeps.inuse _ _ (hlast _ hz)) hfree
    · cases hheld
  · intro o ho
    obtain ⟨hlinked, hnodup⟩ := h.linked o ho
    dsimp only
    by_cases hop : o = req.op
    · subst hop
      rw [update_self]
      refine ⟨?_, hnodup.append (List.nodup_singleton x) ?_⟩
      · rcases List.eq_nil_or_concat (s.elems req.op) with hnil | ⟨l, z, hl⟩
        · rw [hnil]
          exact h.fresh x (.inr hx)
        · rw [List.concat_eq_append] at hl
          rw [hl] at hlinked hnodup ⊢
          have hz : link s.next (l ++ [z]) x = update s.next z (some x) := by simp [link]
          rw [hz]
          exact hlinked.append hnodup (h.fresh x (.inr hx)) (hl ▸ hout req.op ho)
      · simpa using hout req.op ho
    · rw [update_of_ne hop]
      refine ⟨hlinked.congr ?_, hnodup⟩
      intro y hy
      refine link_of_ne fun z hz => ?_
      rintro rfl
      exact hop (h.keeps.unique (h.live ho hy) (hlast _ hz))
  · intro o g y hstage hg hy
    have hold := h.cursor o g y hstage hg hy
    dsimp only
    by_cases hop : o = req.op
    · subst hop
      rw [update_self]
      exact List.mem_append_left _ hold
    · rwa [update_of_ne hop]

theorem Inv.mainStep (hstep : s.MainStep s')
    (hop : s.Meets kernel .main) : Inv kernel capacity s' := by
  have hrequest := h.request
  have hheld := h.held
  cases hstep with
  | test req k i x hmain hx hi =>
    rw [hmain] at hrequest hheld
    refine h.main rfl rfl rfl rfl rfl rfl ?_ ?_
    · dsimp only [gotoMain]
      split_ifs <;> exact hrequest
    · exact fun _ => hheld rfl
  | erase req k i x hmain hx hi =>
    refine h.erase hmain hx ?_
    rintro o ⟨hmem, hlive⟩
    obtain ⟨hreleased, hexited⟩ := hop req k i x hmain hx hi o hmem
    rcases hlive with hhost | ⟨hstage, g, hg, hblock⟩
    · exact hhost hreleased
    · exact hblock (hexited hstage g hg)
  | reset req k i x hmain hx hi =>
    rw [hmain] at hrequest
    exact h.main rfl rfl rfl rfl rfl rfl hrequest (by simp [gotoMain, MainPhase.holds])
  | push req k i x hmain hx hi =>
    rw [hmain] at hrequest
    refine ⟨h.keeps.push hx, h.building, hrequest, fun _ => rfl, ?_, h.linked, h.cursor⟩
    rintro y (hfree | hnone)
    · rcases List.mem_cons.1 hfree with rfl | hfree
      · exact h.fresh y (.inr hx)
      · exact h.fresh y (.inl hfree)
    · cases hnone
  | endReclaim req k i hmain hx =>
    rw [hmain] at hrequest hheld
    refine h.main rfl rfl rfl rfl rfl rfl ?_ (fun _ => hheld rfl)
    intro q hq
    cases req with
    | none => cases hq
    | some req =>
      dsimp only [gotoMain, afterReclaim] at hq
      split_ifs at hq
      · cases hq
      · exact hrequest q hq
  | pop req left x rest hmain hfree =>
    rw [hmain] at hrequest hheld
    refine ⟨h.keeps.take hfree (hheld rfl), h.building, hrequest, by simp [MainPhase.holds], ?_,
      h.linked, h.cursor⟩
    rintro y (hrest | hy)
    · refine h.fresh y (.inl ?_)
      rw [hfree]
      exact List.mem_cons_of_mem _ hrest
    · obtain rfl := Option.some.inj hy
      refine h.fresh x (.inl ?_)
      rw [hfree]
      exact List.mem_cons_self
  | mark req left i x hmain hx hi =>
    rw [hmain] at hrequest
    exact h.main rfl rfl rfl rfl rfl rfl hrequest (by simp [gotoMain, MainPhase.holds])
  | handOut req left i x hmain hx hi => exact h.handOut hmain hx
  | endAlloc req hmain =>
    rw [hmain] at hheld
    exact h.main rfl rfl rfl rfl rfl rfl (by simp [gotoMain, MainPhase.request])
      fun _ => hheld rfl

theorem Inv.hostStep
    (hstage : s.stage o ≠ .building) (hstep : s.HostStep o x s') : Inv kernel capacity s' := by
  obtain ⟨status, p, rfl, hhost⟩ : ∃ status p,
      s' = { s with status := status, host := update s.host (o, x) p } ∧
        s.host (o, x) ≠ .released := by
    cases hstep <;> exact ⟨_, _, rfl, by simp [*]⟩
  refine ⟨h.keeps.mono ?_, ?_, h.request, h.held, h.fresh, h.linked, h.cursor⟩
  · rintro o' y ⟨hy, hlive⟩
    refine ⟨hy, ?_⟩
    rcases hlive with hlive | hwalked
    · left
      by_cases heq : (o', y) = (o, x)
      · rwa [heq]
      · rwa [← update_of_ne heq p s.host]
    · exact .inr hwalked
  · intro o' y hbuilding
    have hne : (o', y) ≠ (o, x) := by
      rintro heq
      exact hstage ((Prod.mk.inj heq).1 ▸ hbuilding)
    exact (update_of_ne hne ..).trans (h.building o' y hbuilding)

end

theorem BlockStep.moves (hstep : s.BlockStep kernel o g s')
    (hcursor : ∀ x, (s.block (o, g)).cursor = some x → x ∈ s.elems o)
    (hnext : ∀ x y, (s.block (o, g)).cursor = some x → s.next x = some y → y ∈ s.elems o) :
    ∃ status p, s' = { s with status := status, block := update s.block (o, g) p } ∧
      s.block (o, g) ≠ .exited ∧ ∀ x, p.cursor = some x → x ∈ s.elems o := by
  have hhead : ∀ y, (s.elems o).head? = some y → y ∈ s.elems o := fun y => List.mem_of_head?
  cases hstep with
  | skip x hblock hval =>
    refine ⟨_, _, rfl, by simp [hblock], ?_⟩
    simpa [hblock, WalkPhase.cursor] using hcursor
  | enter x hblock hval hg =>
    refine ⟨_, _, rfl, by simp [hblock], ?_⟩
    simpa [hblock, WalkPhase.cursor] using hcursor
  | work x hblock =>
    refine ⟨(if (kernel o).complete then s.store x g .DONE else s).status, .advancing x, ?_,
      by simp [hblock], ?_⟩
    · split_ifs <;> rfl
    · simpa [hblock, WalkPhase.cursor] using hcursor
  | advance x hblock =>
    refine ⟨_, _, rfl, by simp [hblock], ?_⟩
    rw [hblock] at hnext
    intro y hy
    cases hxy : s.next x with
    | some z =>
      simp only [hxy, WalkPhase.cursor, Option.some.injEq] at hy
      exact hy ▸ hnext x z rfl hxy
    | none =>
      cases hz : (s.elems o).head? with
      | some z =>
        simp only [hxy, hz, WalkPhase.cursor, Option.some.injEq] at hy
        exact hy ▸ hhead z hz
      | none => simp [hxy, hz, WalkPhase.cursor] at hy
  | load x hblock =>
    refine ⟨_, _, rfl, by simp [hblock], ?_⟩
    split_ifs <;> simpa [hblock, WalkPhase.cursor] using hcursor
  | free x hblock =>
    refine ⟨_, _, rfl, by simp [hblock], ?_⟩
    simpa [hblock, WalkPhase.cursor] using hcursor
  | leave x hblock =>
    refine ⟨_, _, rfl, by simp [hblock], ?_⟩
    rw [hblock] at hnext
    intro y hy
    cases hxy : s.next x with
    | some z =>
      simp only [hxy, WalkPhase.cursor, Option.some.injEq] at hy
      exact hy ▸ hnext x z rfl hxy
    | none => simp [hxy, WalkPhase.cursor] at hy

section

variable (h : Inv kernel capacity s)
include h

theorem Inv.blockStep (hg : g < (kernel o).gridDim)
    (hstage : s.stage o = .launched) (hstep : s.BlockStep kernel o g s') :
    Inv kernel capacity s' := by
  have hcursor : ∀ x, (s.block (o, g)).cursor = some x → x ∈ s.elems o :=
    fun x => h.cursor o g x hstage hg
  have hnext : ∀ x y, (s.block (o, g)).cursor = some x → s.next x = some y → y ∈ s.elems o := by
    intro x y hx hxy
    have hwalked : s.Walked kernel o := ⟨hstage, g, hg, by
      rintro heq
      simp [heq, WalkPhase.cursor] at hx⟩
    exact (h.linked o (.inr hwalked)).1.mem_next (hcursor x hx) hxy
  obtain ⟨status, p, rfl, hblock, hp⟩ := hstep.moves hcursor hnext
  -- the operation whose block moves had a block in its list before
  have hwalked : ∀ o', Walked kernel
      { s with status := status, block := update s.block (o, g) p } o' → s.Walked kernel o' := by
    rintro o' ⟨hstage', g', hg', hne⟩
    by_cases heq : (o', g') = (o, g)
    · obtain ⟨rfl, rfl⟩ := Prod.mk.inj heq
      exact ⟨hstage', g', hg', hblock⟩
    · refine ⟨hstage', g', hg', ?_⟩
      rwa [← update_of_ne heq p s.block]
  refine ⟨h.keeps.mono ?_, h.building, h.request, h.held, h.fresh, ?_, ?_⟩
  · rintro o' y ⟨hy, hlive⟩
    exact ⟨hy, hlive.imp_right (hwalked o')⟩
  · exact fun o' ho => h.linked o' (ho.imp_right (hwalked o'))
  · intro o' g' y hstage' hg' hy
    by_cases heq : (o', g') = (o, g)
    · obtain ⟨rfl, rfl⟩ := Prod.mk.inj heq
      simp only [update_self] at hy
      exact hp y hy
    · simp only [update_of_ne heq] at hy
      exact h.cursor o' g' y hstage' hg' hy

theorem Inv.launch (hmain : s.main = .idle)
    (hstage : s.stage o = .building) (hx : (s.elems o).head? = some x) :
    Inv kernel capacity { s with
      stage := update s.stage o .launched
      block := fun b => if b.1 = o then .waiting x else s.block b } := by
  have hwalked : ∀ o', o' ≠ o → Walked kernel { s with
      stage := update s.stage o .launched
      block := fun b => if b.1 = o then .waiting x else s.block b } o' → s.Walked kernel o' := by
    rintro o' hne ⟨hstage', g, hg, hblock⟩
    simp only [update_of_ne hne] at hstage'
    simp only [if_neg hne] at hblock
    exact ⟨hstage', g, hg, hblock⟩
  have hbuilding : ∀ o', update s.stage o .launched o' = .building → o' ≠ o ∧
      s.stage o' = .building := by
    intro o' ho'
    by_cases hne : o' = o
    · rw [hne, update_self] at ho'
      cases ho'
    · exact ⟨hne, (update_of_ne hne ..).symm.trans ho'⟩
  refine ⟨h.keeps.mono ?_, ?_, ?_, h.held, h.fresh, ?_, ?_⟩
  · rintro o' y ⟨hy, hlive⟩
    by_cases hne : o' = o
    · subst hne
      exact h.live (.inl hstage) hy
    · exact ⟨hy, hlive.imp_right (hwalked o' hne)⟩
  · exact fun o' y ho' => h.building o' y (hbuilding o' ho').2
  · simp [hmain, MainPhase.request]
  · intro o' ho'
    by_cases hne : o' = o
    · subst hne
      exact h.linked o' (.inl hstage)
    · refine h.linked o' (ho'.imp (fun hb => (hbuilding o' hb).2) (hwalked o' hne))
  · intro o' g y hstage' hg hy
    by_cases hne : o' = o
    · subst hne
      simp only [if_true, WalkPhase.cursor, Option.some.injEq] at hy
      exact hy ▸ List.mem_of_head? hx
    · simp only [if_neg hne] at hy
      exact h.cursor o' g y ((update_of_ne hne ..).symm.trans hstage') hg hy

theorem Inv.abandon (hmain : s.main = .idle) (o : ℕ) :
    Inv kernel capacity { s with stage := update s.stage o .abandoned } := by
  have hstages : ∀ o' t, t ≠ .abandoned → update s.stage o .abandoned o' = t → s.stage o' = t := by
    intro o' t ht ho'
    by_cases hne : o' = o
    · rw [hne, update_self] at ho'
      exact absurd ho'.symm ht
    · exact (update_of_ne hne ..).symm.trans ho'
  have hwalked : ∀ o', Walked kernel { s with stage := update s.stage o .abandoned } o' →
      s.Walked kernel o' := by
    rintro o' ⟨hstage', hblock⟩
    exact ⟨hstages o' _ (by simp) hstage', hblock⟩
  refine ⟨h.keeps.mono ?_, ?_, ?_, h.held, h.fresh, ?_, ?_⟩
  · rintro o' y ⟨hy, hlive⟩
    exact ⟨hy, hlive.imp_right (hwalked o')⟩
  · exact fun o' y ho' => h.building o' y (hstages o' _ (by simp) ho')
  · simp [hmain, MainPhase.request]
  · exact fun o' ho' => h.linked o' (ho'.imp (hstages o' _ (by simp)) (hwalked o'))
  · exact fun o' g y hstage' => h.cursor o' g y (hstages o' _ (by simp) hstage')

theorem Inv.step {op : Op} (hstep : s.Step kernel op s')
    (hop : s.Meets kernel op) : Inv kernel capacity s' := by
  cases hstep with
  | call req hmain hreq =>
    have hheld : s.pool.held = none := h.held (by simp [hmain, MainPhase.holds])
    refine h.main rfl rfl rfl rfl rfl rfl ?_ fun _ => hheld
    intro q hq
    cases req with
    | none => cases hq
    | some q' =>
      have hq' : q' = q := by
        dsimp only [gotoMain] at hq
        split_ifs at hq <;> exact Option.some.inj hq
      exact hq' ▸ (hreq q' rfl).1
  | main hmain => exact h.mainStep hmain hop
  | launch o x hmain hstage hx => exact h.launch hmain hstage hx
  | abandon o hmain hstage => exact h.abandon hmain o
  | host o x hx hstage hhost => exact h.hostStep hstage hhost
  | block o g hg hstage hblock => exact h.blockStep hg hstage hblock

theorem Inv.sound : s.Sound kernel capacity where
  nodup := h.keeps.nodup
  lists := by
    intro x
    rw [← h.keeps.covers x, Pool.all, List.mem_append, List.mem_append, Option.mem_toList]
  popped := by
    rintro x hx o hlive
    have hinuse := h.keeps.inuse o x hlive
    rcases hx with hfree | hheld
    · exact h.keeps.not_free hinuse hfree
    · exact h.keeps.not_held hheld hinuse
  owned := h.keeps.owner
  walk := by
    intro o hwalked x hx y hreach
    exact h.live (.inr hwalked) ((h.linked o (.inr hwalked)).1.mem_of_reaches hx hreach)
  cursor := by
    intro o g x hstage hg hx
    refine h.live (.inr ⟨hstage, g, hg, ?_⟩) (h.cursor o g x hstage hg hx)
    rintro heq
    simp [heq, WalkPhase.cursor] at hx

end

theorem Reachable.resetAll {cond : Elems → Op → Prop} (hcond : ∀ s op, cond s op)
    {k : ℕ} (h : Reachable kernel capacity cond s)
    (hmain : s.main = .resetting req k 0) (hx : s.pool.held = some x) :
    ∃ status, Reachable kernel capacity cond { s with
      status := status, main := .resetting req k CTRAN_ALGO_MAX_THREAD_BLOCKS } := by
  have hall : ∀ n ≤ CTRAN_ALGO_MAX_THREAD_BLOCKS, ∃ status, Reachable kernel capacity cond
      { s with status := status, main := .resetting req k n } := by
    intro n
    induction n with
    | zero => exact fun _ => ⟨s.status, hmain ▸ h⟩
    | succ n ih =>
      intro hn
      obtain ⟨status, hreach⟩ := ih (by omega)
      exact ⟨_, hreach.step (.main (.reset req k n x rfl hx (by omega))) (hcond ..)⟩
  exact hall _ (Nat.le_refl _)

end Elems

end TorchComms.Gpe.ElemPool
