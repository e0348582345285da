import TorchComms.Gpe.Submission

/-! # Submits that fail

Two states agree when they differ only in flags that can be had and have no user. Whatever happens
keeps this, so they behave alike. A failed submit leaves a state that agrees with the one before
exactly when it fails early.
-/
namespace TorchComms.Gpe

open Foundation Function

/-! ### Users of a flag -/

namespace GpeWork

variable {w w' w'' : GpeWork} {a : SubmitArgs} {kernelFlag : Option ℕ} {k f : ℕ} {e : GpeEvent}

/-- What is new carries the given flag. -/
structure Extends (kernelFlag : Option ℕ) (w w' : GpeWork) : Prop where
  thread : w'.thread = w.thread
  cmdQueue : ∀ cmd, some cmd ∈ w'.cmdQueue_ → some cmd ∈ w.cmdQueue_ ∨ cmd.kernelFlag = kernelFlag
  hostNodes : ∀ cmd ∈ w'.hostNodes, cmd ∈ w.hostNodes ∨ cmd.kernelFlag = kernelFlag
  launched : ∀ x ∈ w'.launched, x ∈ w.launched ∨ x.kernelFlag = kernelFlag
  graphKernels : ∀ x ∈ w'.graphKernels, x ∈ w.graphKernels ∨ x.kernelFlag = kernelFlag

theorem Extends.refl : Extends kernelFlag w w :=
  ⟨rfl, fun _ => Or.inl, fun _ => Or.inl, fun _ => Or.inl, fun _ => Or.inl⟩

theorem Extends.trans (h : Extends kernelFlag w w') (h' : Extends kernelFlag w' w'') :
    Extends kernelFlag w w'' where
  thread := h'.thread.trans h.thread
  cmdQueue cmd hmem := (h'.cmdQueue cmd hmem).elim (h.cmdQueue cmd) Or.inr
  hostNodes cmd hmem := (h'.hostNodes cmd hmem).elim (h.hostNodes cmd) Or.inr
  launched x hmem := (h'.launched x hmem).elim (h.launched x) Or.inr
  graphKernels x hmem := (h'.graphKernels x hmem).elim (h.graphKernels x) Or.inr

theorem Extends.references (h : Extends kernelFlag w w') (href : w'.References f) :
    w.References f ∨ kernelFlag = some f := by
  cases href with
  | queued cmd hmem hflag =>
    rcases h.cmdQueue cmd hmem with hold | hnew
    · exact Or.inl (.queued cmd hold hflag)
    · exact Or.inr (hnew.symm.trans hflag)
  | running cmd phase hthread hflag => exact Or.inl (.running cmd phase (h.thread ▸ hthread) hflag)
  | hostNode cmd hmem hflag =>
    rcases h.hostNodes cmd hmem with hold | hnew
    · exact Or.inl (.hostNode cmd hold hflag)
    · exact Or.inr (hnew.symm.trans hflag)
  | kernel x i hmem hflag hi hblock =>
    rcases h.launched x hmem with hold | hnew
    · exact Or.inl (.kernel x i hold hflag hi hblock)
    · exact Or.inr (hnew.symm.trans hflag)
  | graphKernel x hmem hflag =>
    rcases h.graphKernels x hmem with hold | hnew
    · exact Or.inl (.graphKernel x hold hflag)
    · exact Or.inr (hnew.symm.trans hflag)

theorem mem_concat_elim {α : Type*} {l : List α} {x y : α} {P : Prop} (hy : y ∈ l ++ [x])
    (hnew : y = x → P) : y ∈ l ∨ P := by
  rcases List.mem_append.mp hy with hold | hlast
  · exact Or.inl hold
  · exact Or.inr (hnew (List.mem_singleton.mp hlast))

variable {cmd : Cmd}

theorem extends_cmdEnqueue (hflag : cmd.kernelFlag = kernelFlag) :
    Extends kernelFlag w (w.cmdEnqueue cmd) :=
  ⟨rfl, fun _ hmem => mem_concat_elim hmem fun heq => Option.some.inj heq ▸ hflag,
    fun _ => Or.inl, fun _ => Or.inl, fun _ => Or.inl⟩

theorem extends_addHostNode (hflag : cmd.kernelFlag = kernelFlag) :
    Extends kernelFlag w (w.addHostNode a cmd).2 := by
  unfold addHostNode
  split
  · exact .refl
  · split <;> exact ⟨rfl, fun _ => Or.inl,
      fun _ hmem => mem_concat_elim hmem fun heq => heq ▸ hflag, fun _ => Or.inl, fun _ => Or.inl⟩

theorem extends_handOver : Extends kernelFlag w (w.handOver a kernelFlag).2 := by
  unfold handOver
  split
  · exact .refl
  · split
    · exact extends_addHostNode rfl
    · exact extends_cmdEnqueue rfl

variable {record wait : CommResult} {cur prev : Option ℕ}

theorem extends_streamWaitStream :
    Extends kernelFlag w (w.streamWaitStream cur prev record wait).2 := by
  unfold streamWaitStream
  split
  · exact .refl
  · split <;> exact ⟨rfl, fun _ => Or.inl, fun _ => Or.inl, fun _ => Or.inl, fun _ => Or.inl⟩

theorem extends_preKernelLaunch : Extends kernelFlag w (w.preKernelLaunch a).2 := by
  unfold preKernelLaunch
  split
  · exact .refl
  · have hstream : Extends kernelFlag w { w with lastUserStream_ := a.stream } :=
      ⟨rfl, fun _ => Or.inl, fun _ => Or.inl, fun _ => Or.inl, fun _ => Or.inl⟩
    exact hstream.trans extends_streamWaitStream

theorem extends_launchKernel : Extends kernelFlag w (w.launchKernel a kernelFlag) := by
  unfold launchKernel
  split
  · exact ⟨rfl, fun _ => Or.inl, fun _ => Or.inl, fun _ => Or.inl,
      fun _ hmem => mem_concat_elim hmem fun heq => heq ▸ rfl⟩
  · exact ⟨rfl, fun _ => Or.inl, fun _ => Or.inl,
      fun _ hmem => mem_concat_elim hmem fun heq => heq ▸ rfl, fun _ => Or.inl⟩

theorem extends_beforeLaunch : Extends kernelFlag w (w.beforeLaunch a).2 := by
  unfold beforeLaunch
  split
  · exact .refl
  · exact extends_preKernelLaunch

theorem extends_launch : Extends kernelFlag w (w.launch a kernelFlag).2.2 := by
  unfold launch
  split
  · exact .refl
  · split
    · exact .refl
    · apply extends_launchKernel.trans
      unfold afterLaunch
      split
      · exact .refl
      · exact extends_streamWaitStream

theorem extends_proceed : Extends kernelFlag w (w.proceed a kernelFlag).2.2 := by
  have hhanded : Extends kernelFlag w (w.handOver a kernelFlag).2 := extends_handOver
  have hbefore (v : GpeWork) : Extends kernelFlag v (v.beforeLaunch a).2 := extends_beforeLaunch
  unfold proceed
  split
  · exact .refl
  · split
    next v hv =>
      rw [hv] at hhanded
      have hordered := hbefore v
      split
      next u hu =>
        rw [hu] at hordered
        exact (hhanded.trans hordered).trans extends_launch
      next res u _ hu =>
        rw [hu] at hordered
        exact hhanded.trans hordered
    next res v _ hv =>
      rw [hv] at hhanded
      exact hhanded

/-- The commands that are queued or in a graph. -/
def commands (w : GpeWork) : ℕ := w.cmdQueue_.length + w.hostNodes.length

theorem commands_streamWaitStream :
    (w.streamWaitStream cur prev record wait).2.commands = w.commands := by
  unfold streamWaitStream
  split
  · rfl
  · split <;> rfl

theorem commands_beforeLaunch : (w.beforeLaunch a).2.commands = w.commands := by
  unfold beforeLaunch preKernelLaunch
  split
  · rfl
  · split
    · rfl
    · exact commands_streamWaitStream

theorem commands_launch : (w.launch a kernelFlag).2.2.commands = w.commands := by
  unfold launch
  split
  · rfl
  · split
    · rfl
    · unfold launchKernel afterLaunch postKernelLaunch
      split
      · rfl
      · exact commands_streamWaitStream

theorem commands_handOver {opGroup : ℕ} (hop : a.opGroup = some opGroup)
    (hnode : ¬ (a.capturing = true ∧ a.addHostNode ≠ .commSuccess)) :
    (w.handOver a kernelFlag).2.commands = w.commands + 1 := by
  rw [handOver, hop]
  cases hcap : a.capturing with
  | false =>
    simp [cmdEnqueue, commands]
    omega
  | true =>
    have hsuccess : a.addHostNode = .commSuccess := by
      by_contra hne
      exact hnode ⟨hcap, hne⟩
    simp only [if_true, GpeWork.addHostNode, hsuccess, ne_eq, not_true_eq_false, if_false]
    split <;> simp [commands] <;> omega

theorem proceed_of_captureInfo (hinfo : a.captureInfo ≠ .commSuccess) :
    w.proceed a kernelFlag = (a.captureInfo, .ret, w) := if_pos hinfo

theorem proceed_of_addHostNode {opGroup : ℕ} (hop : a.opGroup = some opGroup)
    (hinfo : a.captureInfo = .commSuccess) (hcap : a.capturing = true)
    (hnode : a.addHostNode ≠ .commSuccess) :
    w.proceed a kernelFlag = (a.addHostNode, .fail, w) := by
  have hhanded : w.handOver a kernelFlag = (a.addHostNode, w) := by
    simp [handOver, hop, hcap, GpeWork.addHostNode, hnode]
  rw [proceed, if_neg (not_not_intro hinfo), hhanded]
  split
  next h => exact absurd (congrArg Prod.fst h) hnode
  next h =>
    cases h
    rfl

theorem commands_proceed {opGroup : ℕ} (hop : a.opGroup = some opGroup)
    (hinfo : a.captureInfo = .commSuccess)
    (hnode : ¬ (a.capturing = true ∧ a.addHostNode ≠ .commSuccess)) :
    (w.proceed a kernelFlag).2.2.commands = w.commands + 1 := by
  have hmore : (w.handOver a kernelFlag).2.commands = w.commands + 1 := commands_handOver hop hnode
  rw [proceed, if_neg (not_not_intro hinfo)]
  split
  next v hv =>
    rw [hv] at hmore
    have hbefore : (v.beforeLaunch a).2.commands = v.commands := commands_beforeLaunch
    split
    next u hu =>
      rw [hu] at hbefore
      exact commands_launch.trans (hbefore.trans hmore)
    next res u _ hu =>
      rw [hu] at hbefore
      exact hbefore.trans hmore
  next res v _ hv =>
    rw [hv] at hmore
    exact hmore

theorem Step.references (h : w.Step e w') (href : w'.References f) : w.References f := by
  cases h with
  | submitHost opGroup =>
    have hext : Extends none w (w.cmdEnqueue ⟨opGroup, none⟩) := extends_cmdEnqueue rfl
    exact (hext.references href).resolve_right nofun
  | terminate =>
    have hext : Extends none w { w with cmdQueue_ := w.cmdQueue_ ++ [none] } :=
      ⟨rfl, fun _ hmem => mem_concat_elim hmem nofun, fun _ => Or.inl, fun _ => Or.inl,
        fun _ => Or.inl⟩
    exact (hext.references href).resolve_right nofun
  | callback cmd hcmd =>
    have hext : Extends cmd.kernelFlag w (w.cmdEnqueue cmd) := extends_cmdEnqueue rfl
    exact (hext.references href).elim id (.hostNode cmd hcmd)
  | replay x hx =>
    have hext : Extends x.kernelFlag w { w with launched := w.launched ++ [x] } :=
      ⟨rfl, fun _ => Or.inl, fun _ => Or.inl,
        fun _ hmem => mem_concat_elim hmem fun heq => heq ▸ rfl, fun _ => Or.inl⟩
    exact (hext.references href).elim id (.graphKernel x hx)
  | join rest hidle hqueue =>
    cases href with
    | queued cmd hmem hflag => exact .queued cmd (hqueue ▸ List.mem_cons_of_mem _ hmem) hflag
    | running cmd phase hthread hflag => cases hthread
    | hostNode cmd hmem hflag => exact .hostNode cmd hmem hflag
    | kernel x i hmem hflag hi hblock => exact .kernel x i hmem hflag hi hblock
    | graphKernel x hmem hflag => exact .graphKernel x hmem hflag
  | dequeue c rest hidle hqueue =>
    cases href with
    | queued cmd hmem hflag => exact .queued cmd (hqueue ▸ List.mem_cons_of_mem _ hmem) hflag
    | running cmd phase hthread hflag =>
      cases hthread
      exact .queued c (hqueue ▸ List.mem_cons_self) hflag
    | hostNode cmd hmem hflag => exact .hostNode cmd hmem hflag
    | kernel x i hmem hflag hi hblock => exact .kernel x i hmem hflag hi hblock
    | graphKernel x hmem hflag => exact .graphKernel x hmem hflag
  | complete c phase hthread hflag =>
    cases href with
    | queued cmd hmem hflag => exact .queued cmd hmem hflag
    | running cmd phase hthread hflag => cases hthread
    | hostNode cmd hmem hflag => exact .hostNode cmd hmem hflag
    | kernel x i hmem hflag hi hblock => exact .kernel x i hmem hflag hi hblock
    | graphKernel x hmem hflag => exact .graphKernel x hmem hflag

theorem references_goOn {phase phase' : GpePhase} (hthread : w.thread = .busy cmd phase)
    (href : { w with thread := .goOn cmd phase' : GpeWork }.References f) : w.References f := by
  cases href with
  | queued cmd hmem hflag => exact .queued cmd hmem hflag
  | running cmd' phase'' hthread' hflag =>
    change GpeThread.goOn cmd phase' = .busy cmd' phase'' at hthread'
    unfold GpeThread.goOn at hthread'
    split at hthread'
    · cases hthread'
    · cases hthread'
      exact .running cmd phase hthread hflag
  | hostNode cmd hmem hflag => exact .hostNode cmd hmem hflag
  | kernel x i hmem hflag hi hblock => exact .kernel x i hmem hflag hi hblock
  | graphKernel x hmem hflag => exact .graphKernel x hmem hflag

theorem references_set {n i : ℕ} {x : Kernel} {phase : BlockPhase} (hx : w.launched[n]? = some x)
    (hblock : x.block i ≠ .exited)
    (href : { w with launched := w.launched.set n (x.goOn i phase) : GpeWork }.References f) :
    w.References f := by
  cases href with
  | queued cmd hmem hflag => exact .queued cmd hmem hflag
  | running cmd phase hthread hflag => exact .running cmd phase hthread hflag
  | hostNode cmd hmem hflag => exact .hostNode cmd hmem hflag
  | kernel y j hmem hflag hj hyblock =>
    rcases List.mem_or_eq_of_mem_set hmem with hold | rfl
    · exact .kernel y j hold hflag hj hyblock
    · refine .kernel x j (List.mem_of_getElem? hx) hflag hj ?_
      by_cases hji : j = i
      · exact hji ▸ hblock
      · change update x.block i phase j ≠ .exited at hyblock
        rwa [update_of_ne hji] at hyblock
  | graphKernel y hmem hflag => exact .graphKernel y hmem hflag

end GpeWork

namespace GpeImpl

/-! ### States that differ in idle flags only -/

structure Agree (s t : GpeImpl) : Prop where
  work : t.work = s.work
  owns : ∀ f, t.kernelFlagPool.Owns f ↔ s.kernelFlagPool.Owns f
  available : ∀ f, t.kernelFlagPool.Available f ↔ s.kernelFlagPool.Available f
  item : ∀ f, ¬ s.kernelFlagPool.Available f ∨ s.work.References f →
    t.kernelFlagPool.item f = s.kernelFlagPool.item f
  free : ∀ f, s.work.References f →
    (f ∈ t.kernelFlagPool.freeItems_ ↔ f ∈ s.kernelFlagPool.freeItems_)

namespace Agree

variable {s t u : GpeImpl} {w : GpeWork} {k : ℕ}

section

variable (h : Agree s t)
include h

theorem symm : Agree t s where
  work := h.work.symm
  owns f := (h.owns f).symm
  available f := (h.available f).symm
  item f hf := (h.item f (by rwa [← h.available, ← h.work])).symm
  free f hf := (h.free f (h.work ▸ hf)).symm

theorem trans (h' : Agree t u) : Agree s u where
  work := h'.work.trans h.work
  owns f := (h'.owns f).trans (h.owns f)
  available f := (h'.available f).trans (h.available f)
  item f hf := (h'.item f (by rwa [h.available, h.work])).trans (h.item f hf)
  free f hf := (h'.free f (h.work ▸ hf)).trans (h.free f hf)

theorem move (hrefs : ∀ f, w.References f → s.work.References f) :
    Agree ⟨w, s.kernelFlagPool⟩ ⟨w, t.kernelFlagPool⟩ where
  work := rfl
  __ := h
  item f hf := h.item f (hf.imp_right (hrefs f))
  free f hf := h.free f (hrefs f hf)

theorem reclaim : Agree ⟨s.work, s.kernelFlagPool.reclaim⟩ ⟨t.work, t.kernelFlagPool.reclaim⟩ where
  work := h.work
  owns f := by
    rw [KernelFlagPool.owns_reclaim, KernelFlagPool.owns_reclaim]
    exact h.owns f
  available f := by
    rw [KernelFlagPool.available_reclaim, KernelFlagPool.available_reclaim]
    exact h.available f
  item f hf := by
    rw [KernelFlagPool.reclaim_item, KernelFlagPool.reclaim_item]
    rw [KernelFlagPool.available_reclaim] at hf
    exact h.item f hf
  free f hf := by
    rw [KernelFlagPool.mem_free_reclaim, KernelFlagPool.mem_free_reclaim]
    exact h.available f

theorem setItem (hk : s.work.References k) (x : KernelFlagItem)
    (hrefs : ∀ f, w.References f → s.work.References f) :
    Agree ⟨w, s.kernelFlagPool.setItem k x⟩ ⟨w, t.kernelFlagPool.setItem k x⟩ where
  work := rfl
  owns := h.owns
  available f := by
    rw [KernelFlagPool.available_iff, KernelFlagPool.available_iff]
    by_cases hf : f = k
    · subst hf
      rw [KernelFlagPool.setItem_self, KernelFlagPool.setItem_self]
      exact and_congr (h.owns f) (or_congr_left (h.free f hk))
    · rw [KernelFlagPool.setItem_of_ne hf, KernelFlagPool.setItem_of_ne hf]
      have havail := h.available f
      rwa [KernelFlagPool.available_iff, KernelFlagPool.available_iff] at havail
  item f hf := by
    by_cases heq : f = k
    · subst heq
      rw [KernelFlagPool.setItem_self, KernelFlagPool.setItem_self]
    · rw [KernelFlagPool.setItem_of_ne heq, KernelFlagPool.setItem_of_ne heq]
      rw [KernelFlagPool.available_iff, KernelFlagPool.setItem_of_ne heq] at hf
      refine h.item f ?_
      rw [KernelFlagPool.available_iff]
      exact hf.imp_right (hrefs f)
  free f hf := h.free f (hrefs f hf)

end

end Agree

variable {x : KernelFlagItem} {p : KernelFlagPool}

theorem available_take {k f : ℕ} :
    ((p.take k).setItem k x).Available f ↔
      if f = k then x.inUse = false else p.Available f := by
  rw [KernelFlagPool.available_iff]
  by_cases hf : f = k
  · subst hf
    rw [if_pos rfl, KernelFlagPool.setItem_self]
    simp [KernelFlagPool.Owns, KernelFlagPool.setItem]
  · rw [if_neg hf, KernelFlagPool.setItem_of_ne hf, KernelFlagPool.take_item_of_ne hf,
      KernelFlagPool.available_iff]
    simp [KernelFlagPool.Owns, KernelFlagPool.setItem, hf]

theorem owns_take {k f : ℕ} : ((p.take k).setItem k x).Owns f ↔ f = k ∨ p.Owns f := by
  by_cases hf : f = k
  · simp [KernelFlagPool.Owns, KernelFlagPool.setItem, hf]
  · simp [KernelFlagPool.Owns, KernelFlagPool.setItem, hf]

theorem item_take_of_ne {k f : ℕ} (hf : f ≠ k) : ((p.take k).setItem k x).item f = p.item f := by
  rw [KernelFlagPool.setItem_of_ne hf, KernelFlagPool.take_item_of_ne hf]

theorem Agree.take {s t : GpeImpl} {w : GpeWork} {k : ℕ} (h : Agree s t) (x : KernelFlagItem)
    (hrefs : ∀ f, w.References f → s.work.References f ∨ f = k) :
    Agree ⟨w, (s.kernelFlagPool.take k).setItem k x⟩
      ⟨w, (t.kernelFlagPool.take k).setItem k x⟩ where
  work := rfl
  owns f := by
    rw [owns_take, owns_take]
    exact or_congr_right (h.owns f)
  available f := by
    rw [available_take, available_take]
    split
    · exact Iff.rfl
    · exact h.available f
  item f hf := by
    by_cases heq : f = k
    · subst heq
      rw [KernelFlagPool.setItem_self, KernelFlagPool.setItem_self]
    · rw [item_take_of_ne heq, item_take_of_ne heq]
      rw [available_take, if_neg heq] at hf
      exact h.item f (hf.imp_right fun href => (hrefs f href).resolve_right heq)
  free f hf := by
    change f ∈ (t.kernelFlagPool.take k).freeItems_ ↔ f ∈ (s.kernelFlagPool.take k).freeItems_
    rw [KernelFlagPool.mem_free_take, KernelFlagPool.mem_free_take]
    exact and_congr_left fun hne => h.free f ((hrefs f hf).resolve_right hne)

theorem agree_take {s : GpeImpl} {k : ℕ}
    (hk : s.kernelFlagPool.Available k) (hfree : ¬ s.work.References k) (hx : x.inUse = false) :
    Agree s ⟨s.work, (s.kernelFlagPool.take k).setItem k x⟩ where
  work := rfl
  owns f := by
    rw [owns_take]
    refine or_iff_right_of_imp ?_
    rintro rfl
    exact (KernelFlagPool.available_iff.mp hk).1
  available f := by
    rw [available_take]
    split
    next heq => exact iff_of_true hx (heq ▸ hk)
    next => exact Iff.rfl
  item f hf := by
    by_cases heq : f = k
    · subst heq
      exact absurd hf (not_or.mpr ⟨not_not_intro hk, hfree⟩)
    · exact item_take_of_ne heq
  free f hf := by
    change f ∈ (s.kernelFlagPool.take k).freeItems_ ↔ f ∈ s.kernelFlagPool.freeItems_
    rw [KernelFlagPool.mem_free_take]
    exact and_iff_left fun heq => hfree (heq ▸ hf)

theorem agree_reclaim {s : GpeImpl}
    (hfree : ∀ k, s.kernelFlagPool.Available k → ¬ s.work.References k) :
    Agree s ⟨s.work, s.kernelFlagPool.reclaim⟩ where
  work := rfl
  owns f := KernelFlagPool.owns_reclaim
  available f := KernelFlagPool.available_reclaim
  item f _ := congrFun KernelFlagPool.reclaim_item f
  free f hf := by
    rw [KernelFlagPool.mem_free_reclaim]
    refine iff_of_false (fun h => hfree f h hf) fun h => hfree f (Or.inl h) hf

/-! ### Whatever happens later -/

section Later

variable {abortEnabled enableCancellableWaits : Bool} {s t s' : GpeImpl} {a : SubmitArgs} {k : ℕ}

/-- The words of the flag when the call returns. -/
def flagLeft (w : GpeWork) (a : SubmitArgs) (k : ℕ) : KernelFlagItem :=
  let item : KernelFlagItem := { KernelFlagItem.onPop with numGroups_ := a.numGroups }
  if (w.proceed a (some k)).2.1 = .fail then item.reset else item

theorem withFlag_take (s : GpeImpl) (a : SubmitArgs) (k : ℕ) :
    (s.withFlag a k (s.kernelFlagPool.take k)).gpe = ⟨(s.work.proceed a (some k)).2.2,
      (s.kernelFlagPool.take k).setItem k (flagLeft s.work a k)⟩ := by
  rw [withFlag, KernelFlagPool.take_item_self]
  simp only [flagLeft]
  split
  · rw [KernelFlagPool.setItem_self]
    simp [KernelFlagPool.setItem]
  · rfl

theorem references_proceed {w : GpeWork} {f : ℕ}
    (href : (w.proceed a (some k)).2.2.References f) : w.References f ∨ f = k :=
  (GpeWork.extends_proceed.references href).imp_right fun h => (Option.some.inj h).symm

theorem agree_simulates : Simulates (Step abortEnabled enableCancellableWaits) Agree := by
  intro s t e s' h hstep
  obtain ⟨w, q⟩ := t
  obtain rfl : w = s.work := h.work
  cases hstep with
  | work hwork => exact ⟨_, .work hwork, h.move fun f => hwork.references⟩
  | reclaim => exact ⟨_, .reclaim, h.reclaim⟩
  | outOfFlags a hnone => exact ⟨_, .outOfFlags a fun k hk => hnone k ((h.available k).mp hk), h⟩
  | badDevState a k hk hdev => exact ⟨_, .badDevState a k ((h.available k).mpr hk) hdev, h⟩
  | submitKernel a k hk hdev hop =>
    refine ⟨_, .submitKernel a k ((h.available k).mpr hk) hdev hop, h.move fun f href => ?_⟩
    exact (GpeWork.extends_proceed.references href).resolve_right nofun
  | submit a k opGroup hk hdev hop =>
    refine ⟨_, .submit a k opGroup ((h.available k).mpr hk) hdev hop, ?_⟩
    rw [withFlag_take, withFlag_take]
    exact h.take _ fun f => references_proceed
  | thread testAbort cmd phase phase' k hthread hflag hnext =>
    have hk : s.work.References k := .running cmd phase hthread hflag
    have hitem : q.item k = s.kernelFlagPool.item k := h.item k (Or.inr hk)
    refine ⟨_, .thread testAbort cmd phase phase' k hthread hflag (hitem ▸ hnext), ?_⟩
    rw [hitem]
    exact h.setItem hk _ fun f => GpeWork.references_goOn hthread
  | block n i k kernel phase v hkernel hflag hi hblock =>
    have hne : kernel.block i ≠ .exited := by
      intro hexited
      rw [hexited] at hblock
      cases hblock
    have hk : s.work.References k :=
      .kernel kernel i (List.mem_of_getElem? hkernel) hflag hi hne
    have hitem : q.item k = s.kernelFlagPool.item k := h.item k (Or.inr hk)
    refine ⟨_, .block n i k kernel phase v hkernel hflag hi (hitem ▸ hblock), ?_⟩
    rw [hitem]
    exact h.setItem hk _ fun f => GpeWork.references_set hkernel hne

theorem Agree.alike (h : Agree s t) :
    Alike (Step abortEnabled enableCancellableWaits) GpeImpl.work s t :=
  agree_simulates.alike (fun _ _ => Agree.symm) (fun _ _ => Agree.work) h

end Later

/-! ### `submit` -/

section Submit

variable {abortEnabled enableCancellableWaits : Bool} {s : GpeImpl} {a : SubmitArgs} {k opGroup : ℕ}

theorem reclaimed_work : s.reclaimed.work = s.work := by
  unfold reclaimed
  split <;> rfl

theorem available_reclaimed {f : ℕ} :
    s.reclaimed.kernelFlagPool.Available f ↔ s.kernelFlagPool.Available f := by
  unfold reclaimed
  split
  · exact KernelFlagPool.available_reclaim
  · exact Iff.rfl

theorem not_available_of_free_nil (hfree : s.reclaimed.kernelFlagPool.freeItems_ = []) (f : ℕ) :
    ¬ s.reclaimed.kernelFlagPool.Available f := by
  rw [available_reclaimed]
  intro hf
  unfold reclaimed at hfree
  split at hfree
  next =>
    have hmem := KernelFlagPool.mem_free_reclaim.mpr hf
    rw [hfree] at hmem
    cases hmem
  next hne => exact hne hfree

theorem submit_cases (s : GpeImpl) (hop : a.opGroup = some opGroup) :
    (s.reclaimed.kernelFlagPool.freeItems_ = [] ∨ a.devState = false) ∧
      s.submit a = ⟨.commInternalError, none, s.reclaimed⟩ ∨
    ∃ k, s.reclaimed.kernelFlagPool.freeItems_.head? = some k ∧ a.devState = true ∧
      s.submit a = s.reclaimed.withFlag a k (s.reclaimed.kernelFlagPool.take k) := by
  unfold submit submitReclaimed
  cases hfree : s.reclaimed.kernelFlagPool.freeItems_ with
  | nil => exact Or.inl ⟨Or.inl rfl, if_pos rfl⟩
  | cons k rest =>
    rw [if_neg (List.cons_ne_nil k rest)]
    cases hdev : a.devState with
    | false => exact Or.inl ⟨Or.inr rfl, if_pos rfl⟩
    | true =>
      refine Or.inr ⟨k, rfl, rfl, ?_⟩
      rw [if_neg Bool.true_eq_false.mp, hop, KernelFlagPool.pop_of_free hfree]

theorem submit_runs (hop : a.opGroup = some opGroup) :
    ∃ before, Runs (Step abortEnabled enableCancellableWaits) s
      (before ++ [.submit a (s.submit a).result]) (s.submit a).gpe ∧
      (before = [] ∨ before = [.reclaim]) := by
  have hreclaim : ∃ before, (before = [] ∨ before = [GpeEvent.reclaim]) ∧
      ∀ e t, Step abortEnabled enableCancellableWaits s.reclaimed e t →
        Runs (Step abortEnabled enableCancellableWaits) s (before ++ [e]) t := by
    unfold reclaimed
    split
    · exact ⟨[.reclaim], Or.inr rfl, fun e t h => .cons .reclaim (.cons h (.nil t))⟩
    · exact ⟨[], Or.inl rfl, fun e t h => .cons h (.nil t)⟩
  obtain ⟨before, hbefore, hruns⟩ := hreclaim
  refine ⟨before, hruns _ _ ?_, hbefore⟩
  rcases submit_cases s hop with ⟨hfail, heq⟩ | ⟨k, hk, hdev, heq⟩
  · rw [heq]
    cases hfree : s.reclaimed.kernelFlagPool.freeItems_ with
    | nil => exact .outOfFlags a (not_available_of_free_nil hfree)
    | cons k rest =>
      have hdev : a.devState = false := hfail.resolve_left (hfree ▸ List.cons_ne_nil k rest)
      have hk : k ∈ s.reclaimed.kernelFlagPool.freeItems_ := hfree ▸ List.mem_cons_self
      exact .badDevState a k (Or.inl hk) hdev
  · rw [heq]
    exact .submit a k opGroup (Or.inl (List.mem_of_mem_head? hk)) hdev hop

/-- The call moved no flag but those it reclaimed and the one it took, and they have no user. -/
theorem FailsEarly.agree_reclaimed (h : s.FailsEarly a) : Agree s s.reclaimed := by
  unfold reclaimed
  split
  next hfree => exact agree_reclaim (h.unused hfree)
  next => exact ⟨rfl, fun _ => Iff.rfl, fun _ => Iff.rfl, fun _ _ => rfl, fun _ _ => Iff.rfl⟩

theorem FailsEarly.not_references (h : s.FailsEarly a) {f : ℕ}
    (hf : f ∈ s.reclaimed.kernelFlagPool.freeItems_) (hnew : f ∉ s.kernelFlagPool.freeItems_) :
    ¬ s.work.References f := by
  unfold reclaimed at hf
  split at hf
  next hfree => exact h.unused hfree f (KernelFlagPool.mem_free_reclaim.mp hf)
  next => exact absurd hf hnew

theorem FailsEarly.asItWas (h : s.FailsEarly a) (hop : a.opGroup = some opGroup) :
    s.AsItWas abortEnabled enableCancellableWaits (s.submit a) := by
  have hreclaimed := h.agree_reclaimed
  rcases submit_cases s hop with ⟨-, heq⟩ | ⟨k, hk, hdev, heq⟩
  · rw [heq]
    refine ⟨reclaimed_work, ?_, hreclaimed.alike⟩
    rintro f (hf | ⟨hf, hnew⟩)
    · cases hf
    · exact ⟨Or.inl hf, reclaimed_work (s := s) ▸ h.not_references hf hnew⟩
  · have hkmem : k ∈ s.reclaimed.kernelFlagPool.freeItems_ := List.mem_of_mem_head? hk
    have hnil : s.reclaimed.kernelFlagPool.freeItems_ ≠ [] := List.ne_nil_of_mem hkmem
    obtain ⟨hunused, hcase⟩ := (h.step.resolve_left hnil).resolve_left (by simp [hdev])
    have hk' : ¬ s.reclaimed.work.References k := reclaimed_work (s := s) ▸ hunused k hk
    -- in both cases nothing was handed over and the flag is not in use
    obtain ⟨hwork, hitem⟩ : (s.reclaimed.work.proceed a (some k)).2.2 = s.reclaimed.work ∧
        (flagLeft s.reclaimed.work a k).inUse = false := by
      rcases hcase with ⟨hinfo, hcap, hnode⟩ | ⟨hinfo, hzero⟩
      · rw [flagLeft, GpeWork.proceed_of_addHostNode hop hinfo hcap hnode, if_pos rfl]
        exact ⟨rfl, KernelFlagItem.inUse_reset _⟩
      · rw [flagLeft, GpeWork.proceed_of_captureInfo hinfo, if_neg nofun]
        exact ⟨rfl, (KernelFlagItem.inUse_onPop _).mpr hzero⟩
    have hagree := agree_take (Or.inl hkmem) hk' hitem
    have hflag : (s.submit a).kernelFlag = some k := by
      rw [heq]
      rfl
    have hgpe : (s.submit a).gpe = ⟨s.reclaimed.work,
        (s.reclaimed.kernelFlagPool.take k).setItem k (flagLeft s.reclaimed.work a k)⟩ := by
      rw [heq, withFlag_take, hwork]
    refine ⟨by rw [hgpe, reclaimed_work], ?_, hgpe ▸ (hreclaimed.trans hagree).alike⟩
    rw [hgpe, hflag]
    rintro f (hf | ⟨hf, hnew⟩)
    · obtain rfl : k = f := Option.some.inj hf
      exact ⟨available_take.mpr (by rwa [if_pos rfl]), hk'⟩
    · obtain ⟨hold, hne⟩ := KernelFlagPool.mem_free_take.mp hf
      refine ⟨Or.inl hf, ?_⟩
      have hunref := h.not_references hold hnew
      rwa [← reclaimed_work] at hunref

theorem AsItWas.failsEarly (h : s.AsItWas abortEnabled enableCancellableWaits (s.submit a))
    (hop : a.opGroup = some opGroup) : s.FailsEarly a := by
  have hunused (f : ℕ) (hf : (s.submit a).kernelFlag = some f ∨
      f ∈ (s.submit a).gpe.kernelFlagPool.freeItems_ ∧ f ∉ s.kernelFlagPool.freeItems_) :
      ¬ s.work.References f := h.work ▸ (h.flag f hf).2
  rcases submit_cases s hop with ⟨hfail, heq⟩ | ⟨k, hk, hdev, heq⟩
  · refine ⟨fun hfree f hf => ?_, hfail.imp_right Or.inl⟩
    refine hunused f (Or.inr ⟨?_, hfree ▸ List.not_mem_nil⟩)
    rw [heq, reclaimed, if_pos hfree]
    exact KernelFlagPool.mem_free_reclaim.mpr hf
  · have hflag : (s.submit a).kernelFlag = some k := by
      rw [heq]
      rfl
    have hgpe : (s.submit a).gpe = ⟨(s.reclaimed.work.proceed a (some k)).2.2,
        (s.reclaimed.kernelFlagPool.take k).setItem k (flagLeft s.reclaimed.work a k)⟩ := by
      rw [heq, withFlag_take]
    constructor
    case unused =>
      intro hfree f hf
      by_cases hfk : f = k
      · exact hunused f (Or.inl (hfk ▸ hflag))
      · refine hunused f (Or.inr ⟨?_, hfree ▸ List.not_mem_nil⟩)
        rw [hgpe, reclaimed, if_pos hfree]
        exact KernelFlagPool.mem_free_take.mpr ⟨KernelFlagPool.mem_free_reclaim.mpr hf, hfk⟩
    case step =>
      refine Or.inr (Or.inr ⟨?_, ?_⟩)
      · intro f hf
        obtain rfl : k = f := Option.some.inj (hk.symm.trans hf)
        exact hunused k (Or.inl hflag)
      · by_cases hinfo : a.captureInfo = .commSuccess
        · refine Or.inl ⟨hinfo, ?_⟩
          by_contra hnode
          have hmore : (s.reclaimed.work.proceed a (some k)).2.2.commands =
            s.reclaimed.work.commands + 1 := GpeWork.commands_proceed hop hinfo hnode
          have hsame := congrArg GpeWork.commands h.work
          rw [hgpe, hmore, reclaimed_work] at hsame
          omega
        · have havail := (h.flag k (Or.inl hflag)).1
          rw [hgpe, available_take, if_pos rfl, flagLeft, GpeWork.proceed_of_captureInfo hinfo,
            if_neg nofun, KernelFlagItem.inUse_onPop] at havail
          exact Or.inr ⟨hinfo, havail⟩

end Submit

end GpeImpl

/-- A failed `submit` of some operations leaves the GPE as it was exactly when it fails early. -/
theorem submit_asItWas_iff (abortEnabled enableCancellableWaits : Bool) (s : GpeImpl)
    (a : SubmitArgs) (hop : a.opGroup ≠ none) :
    s.AsItWas abortEnabled enableCancellableWaits (s.submit a) ↔ s.FailsEarly a := by
  obtain ⟨opGroup, hsome⟩ := Option.ne_none_iff_exists'.mp hop
  exact ⟨fun h => h.failsEarly hsome, fun h => h.asItWas hsome⟩

/-- A kernel of one block on stream 7, all of whose calls succeed. -/
def sendArgs (capturing : Bool) : SubmitArgs :=
  ⟨some 0, true, true, 1, 7, .commSuccess, capturing, .commSuccess, .commSuccess, .commSuccess,
    .commSuccess, .commSuccess, .commSuccess, .commSuccess, .commSuccess, .commSuccess⟩

/-- In a capture, the host node is not inserted. -/
theorem submit_asItWas_capture : (GpeImpl.init 1 0).AsItWas false false
    ((GpeImpl.init 1 0).submit
      { sendArgs true with addHostNode := .commUnhandledCudaError }) := by
  refine (submit_asItWas_iff false false _ _ (by decide)).mpr ⟨nofun, Or.inr (Or.inr ⟨?_, ?_⟩)⟩
  · rintro k - (_ | _ | _ | _ | _) <;> contradiction
  · exact Or.inl ⟨rfl, rfl, by decide⟩

/-- The kernel is not launched, and the command is in the queue with a flag that counts as free. -/
theorem not_asItWas_launch :
    let r := (GpeImpl.init 1 0).submit
      { sendArgs false with kernelLaunch := .commUnhandledCudaError }
    r.result = .commUnhandledCudaError ∧ r.gpe.work.cmdQueue_ = [some ⟨0, some 0⟩] ∧
      r.gpe.kernelFlagPool.Available 0 ∧ ¬ (GpeImpl.init 1 0).AsItWas false false r := by
  refine ⟨rfl, rfl, Or.inr ⟨List.mem_singleton_self 0, rfl⟩, fun h => ?_⟩
  cases congrArg GpeWork.cmdQueue_ h.work

end TorchComms.Gpe
