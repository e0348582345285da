import TorchComms.CtranIb.PendingOps

/-! # Control operations reach the connection in the order of their issue

The pending operations of a peer leave the map under one lock and reach the connection under
another. In between, an operation that finds the map empty goes straight to the connection and
overtakes them. Where that does not happen to two operations of one direction, the connection gets
the sends, and the receives, in the order in which they were issued.
-/
namespace TorchComms.CtranIb

open Foundation

/-- The operations that are out of the map for a peer. -/
def heldOps (ready : List (ℕ × List PendingOp)) (peerRank : ℕ) : List PendingOp :=
  (ready.filter fun r => r.1 = peerRank).flatMap Prod.snd

section Held

variable {ready : List (ℕ × List PendingOp)} {p q : ℕ} {ops : List PendingOp}

theorem heldOps_append (ready ready' : List (ℕ × List PendingOp)) (p : ℕ) :
    heldOps (ready ++ ready') p = heldOps ready p ++ heldOps ready' p := by
  simp only [heldOps, List.filter_append, List.flatMap_append]

theorem heldOps_single (p : ℕ) (ops : List PendingOp) (q : ℕ) :
    heldOps [(p, ops)] q = if p = q then ops else [] := by
  by_cases h : p = q <;> simp [heldOps, h]

theorem heldOps_of_not_mem (h : p ∉ ready.map Prod.fst) : heldOps ready p = [] := by
  rw [heldOps, List.filter_eq_nil_iff.mpr]
  · rfl
  · intro r hr
    simp only [decide_eq_true_eq]
    rintro rfl
    exact h (List.mem_map_of_mem hr)

theorem heldOps_eraseIdx (hnodup : (ready.map Prod.fst).Nodup) {i : ℕ}
    (hi : ready[i]? = some (p, ops)) (q : ℕ) :
    heldOps ready q = (if p = q then ops else []) ++ heldOps (ready.eraseIdx i) q ∧
      (p = q → heldOps (ready.eraseIdx i) q = []) := by
  rcases List.getElem?_eq_some_iff.mp hi with ⟨hlt, hget⟩
  have hsplit : ready = ready.take i ++ (p, ops) :: ready.drop (i + 1) := by
    rw [← hget, List.getElem_cons_drop, List.take_append_drop]
  have herase : ready.eraseIdx i = ready.take i ++ ready.drop (i + 1) :=
    List.eraseIdx_eq_take_drop_succ ..
  rw [hsplit, List.map_append, List.map_cons, List.nodup_middle, List.nodup_cons,
    ← List.map_append] at hnodup
  have hnone : heldOps (ready.take i ++ ready.drop (i + 1)) p = [] :=
    heldOps_of_not_mem hnodup.1
  rw [herase]
  by_cases hpq : p = q
  · subst hpq
    refine ⟨?_, fun _ => hnone⟩
    rw [hnone, List.append_nil, if_pos rfl]
    rw [heldOps_append, List.append_eq_nil_iff] at hnone
    conv_lhs => rw [hsplit]
    rw [heldOps_append, ← List.singleton_append, heldOps_append, heldOps_single, if_pos rfl,
      hnone.1, hnone.2, List.nil_append, List.append_nil]
  · refine ⟨?_, fun h => absurd h hpq⟩
    conv_lhs => rw [hsplit]
    rw [heldOps_append, ← List.singleton_append, heldOps_append, heldOps_single, if_neg hpq,
      heldOps_append, List.nil_append, List.nil_append]

end Held

namespace CtranIbCtrl

/-! ### Where an operation is between its issue and its connection -/

def pendingOps (t : CtranIbCtrl) (p : ℕ) : List PendingOp := (t.rankToPendingOpsMap.lookup p).getD []

def pendingCalls (t : CtranIbCtrl) (p : ℕ) : List VcCall :=
  (t.pendingOps p).filterMap PendingOp.call

def heldCalls (t : CtranIbCtrl) (p : ℕ) : List VcCall :=
  (heldOps t.progress.ready p).filterMap PendingOp.call

/-- The operation that the issuing thread has got past its connection attempts. -/
def inHand (t : CtranIbCtrl) (p : ℕ) : List VcCall :=
  match t.issuer with
  | .gotVc q c _ | .direct q c => if q = p then [c] else []
  | _ => []

/-- The operations of one direction. -/
def dir (send : Bool) (cs : List VcCall) : List VcCall := cs.filter fun c => c.isSend = send

theorem dir_append (send : Bool) (cs cs' : List VcCall) :
    dir send (cs ++ cs') = dir send cs ++ dir send cs' := List.filter_append ..

/-- What was issued to a peer in one direction is what the connection got, followed by what is out
of the map, what is in the map and what the issuing thread has in hand. -/
def InOrder (t : CtranIbCtrl) : Prop := ∀ p send, dir send (t.issued p) =
  dir send (t.handed p) ++ dir send (t.heldCalls p) ++ dir send (t.pendingCalls p) ++
    dir send (t.inHand p)

/-- A direct post finds no operation of its direction out of the map, and no pending post fails. -/
def NoneHeld (t : CtranIbCtrl) (op : Op) : Prop :=
  match op, t.issuer with
  | .postDirect, .direct p c => dir c.isSend (t.heldCalls p) = []
  | .post _ fails, _ => fails = none
  | _, _ => True

def Allowed (past : List Op) (t : CtranIbCtrl) (op : Op) : Prop := WellFormed past t op ∧ t.NoneHeld op

/-- The peers that a walk of the map still visits. -/
def todo : Progress → List ℕ
  | .scanning todo _ => todo
  | _ => []

structure Coherent (t : CtranIbCtrl) : Prop where
  order : t.InOrder
  typed : ∀ p, ∀ op ∈ t.pendingOps p, op.call.isSome
  ready : ∀ r ∈ t.progress.ready, (∀ op ∈ r.2, op.call.isSome) ∧ t.rankToVcMap r.1 = true
  once : (t.progress.ready.map Prod.fst ++ todo t.progress).Nodup
  gotVc : ∀ p c, t.issuer = .gotVc p c true → t.rankToVcMap p = true
  direct : ∀ p c, t.issuer = .direct p c → t.rankToVcMap p = true ∧ t.pendingOps p = []
  connected : ∀ p, t.connectedPeerMap p = true → t.rankToVcMap p = true ∧ t.pendingOps p = []

theorem coherent_init (rank nRanks : ℕ) (connected : ℕ → Bool) :
    (init rank nRanks connected).Coherent where
  order := fun _ _ => rfl
  typed := by
    intro p op hop
    cases hop
  ready := by
    intro r hr
    cases hr
  once := List.nodup_nil
  gotVc := by
    intro p c h
    cases h
  direct := by
    intro p c h
    cases h
  connected := fun _ h => ⟨h, rfl⟩

theorem mapM_call {ops : List PendingOp} (h : ∀ op ∈ ops, op.call.isSome) :
    ops.mapM PendingOp.call = some (ops.filterMap PendingOp.call) := by
  induction ops with
  | nil => rfl
  | cons op ops ih =>
    rcases Option.isSome_iff_exists.mp (h op List.mem_cons_self) with ⟨c, hc⟩
    rw [List.mapM_cons, ih fun op hop => h op (List.mem_cons_of_mem _ hop), hc,
      List.filterMap_cons_some hc]
    rfl

/-- What a step does, where the thread whose step it is can take it and nothing faults. -/
inductive Transition (t : CtranIbCtrl) : Op → CtranIbCtrl → Prop
  | updateVcState (p : ℕ) : Transition t (.updateVcState p) (t.updateVcState p)
  | outOfRange (p : ℕ) (c : VcCall) : Transition t (.issue p c) t
  | attempt (p : ℕ) (c : VcCall) (h : t.issuer = .idle) :
      Transition t (.issue p c) { t with issuer := .connecting p c }
  | enter (p : ℕ) (c : VcCall) (h : t.issuer = .idle) :
      Transition t (.issue p c) (t.enter p c (t.rankToVcMap p))
  | connect (ok : Bool) {p : ℕ} {c : VcCall} (h : t.issuer = .connecting p c) :
      Transition t (.bootstrapConnect ok) ((t.updateVcState p).enter p c true)
  | giveUp (ok : Bool) {p : ℕ} {c : VcCall} (h : t.issuer = .connecting p c) :
      Transition t (.bootstrapConnect ok) { t with issuer := .idle }
  | toDirect {p : ℕ} {c : VcCall} {vc : Bool} (h : t.issuer = .gotVc p c vc)
      (hvc : t.rankToVcMap p = true) (hempty : t.pendingOps p = []) :
      Transition t .addToPendingOpsIfRequired { t with issuer := .direct p c }
  | push {p : ℕ} {c : VcCall} {vc : Bool} (h : t.issuer = .gotVc p c vc)
      (hnot : t.connectedPeerMap p = false) :
      Transition t .addToPendingOpsIfRequired { t with
        rankToPendingOpsMap := t.rankToPendingOpsMap.insert p (t.pendingOps p ++ [.ofCall p c])
        issuer := .idle }
  | direct {p : ℕ} {c : VcCall} (h : t.issuer = .direct p c) :
      Transition t .postDirect { t.hand p [c] with issuer := .idle }
  | nothing (h : t.progress = .idle) (hkeys : [].Perm t.rankToPendingOpsMap.keys) :
      Transition t (.progressStart []) t
  | walk {order : List ℕ} (h : t.progress = .idle) (hkeys : order.Perm t.rankToPendingOpsMap.keys) :
      Transition t (.progressStart order) { t with progress := .scanning order [] }
  | ended {ready : List (ℕ × List PendingOp)} {progress : Progress}
      (h : t.progress = .scanning [] ready) (hready : progress.ready = ready)
      (htodo : todo progress = []) : Transition t .scan { t with progress }
  | skip {p : ℕ} {todo : List ℕ} {ready : List (ℕ × List PendingOp)}
      (h : t.progress = .scanning (p :: todo) ready) (hvc : t.rankToVcMap p = false) :
      Transition t .scan { t with progress := .scanning todo ready }
  | take {p : ℕ} {todo : List ℕ} {ready : List (ℕ × List PendingOp)}
      (h : t.progress = .scanning (p :: todo) ready) (hvc : t.rankToVcMap p = true) :
      Transition t .scan { t with
        rankToPendingOpsMap := t.rankToPendingOpsMap.erase p
        progress := .scanning todo (ready ++ [(p, t.pendingOps p)]) }
  | post {i p : ℕ} {ready : List (ℕ × List PendingOp)} {ops : List PendingOp} {progress : Progress}
      (h : t.progress = .posting ready) (hi : ready[i]? = some (p, ops))
      (hready : progress.ready = ready.eraseIdx i) (htodo : todo progress = []) :
      Transition t (.post i none) { t.hand p (ops.filterMap PendingOp.call) with progress }

section Steps

variable {t : CtranIbCtrl} (h : t.Coherent)
include h

theorem Coherent.updateVcState (p : ℕ) : (t.updateVcState p).Coherent := by
  have hmono : ∀ q, t.rankToVcMap q = true → (t.updateVcState p).rankToVcMap q = true := by
    intro q hq
    by_cases hqp : q = p
    · subst hqp
      exact Function.update_self ..
    · exact (Function.update_of_ne hqp ..).trans hq
  exact
    { __ := h
      ready := fun r hr => ⟨(h.ready r hr).1, hmono r.1 (h.ready r hr).2⟩
      gotVc := fun q c hq => hmono q (h.gotVc q c hq)
      direct := fun q c hq => ⟨hmono q (h.direct q c hq).1, (h.direct q c hq).2⟩
      connected := fun q hq => ⟨hmono q (h.connected q hq).1, (h.connected q hq).2⟩ }

variable {c : VcCall} {past : List Op} {vc : Bool} {op : Op}

theorem Coherent.enter {p : ℕ} (hnone : ∀ q, t.inHand q = [])
    (hvc : vc = true → t.rankToVcMap p = true) : (t.enter p c vc).Coherent where
  order := by
    intro q send
    have horder := h.order q send
    rw [hnone] at horder
    by_cases hqp : q = p
    · subst hqp
      have hissued : (t.enter q c vc).issued q = t.issued q ++ [c] := Function.update_self ..
      have hhand : (t.enter q c vc).inHand q = [c] := if_pos rfl
      rw [hissued, hhand, dir_append, horder]
      simp only [dir, List.filter_nil, List.append_nil]
      rfl
    · have hissued : (t.enter p c vc).issued q = t.issued q := Function.update_of_ne hqp ..
      have hhand : (t.enter p c vc).inHand q = [] := if_neg (Ne.symm hqp)
      rw [hissued, hhand, horder]
      rfl
  __ := h
  gotVc := by
    intro q c' hq
    cases hq
    exact hvc rfl
  direct := by
    intro q c' hq
    cases hq

theorem Coherent.toIssuer {i : Issuer} (hnone : ∀ q, t.inHand q = [])
    (hnone' : ∀ q, CtranIbCtrl.inHand { t with issuer := i } q = [])
    (hi : ∀ p c vc, i ≠ .gotVc p c vc) (hi' : ∀ p c, i ≠ .direct p c) :
    Coherent { t with issuer := i } where
  order := by
    intro q send
    have horder := h.order q send
    rw [hnone] at horder
    rw [hnone']
    exact horder
  __ := h
  gotVc := fun p c hp => absurd hp (hi p c true)
  direct := fun p c hp => absurd hp (hi' p c)

theorem Coherent.push {p : ℕ} (hissuer : t.issuer = .gotVc p c vc)
    (hnot : t.connectedPeerMap p = false) : Coherent { t with
      rankToPendingOpsMap := t.rankToPendingOpsMap.insert p (t.pendingOps p ++ [.ofCall p c])
      issuer := .idle } := by
  have hpending : ∀ q, CtranIbCtrl.pendingOps { t with
      rankToPendingOpsMap := t.rankToPendingOpsMap.insert p (t.pendingOps p ++ [.ofCall p c])
      issuer := .idle } q = t.pendingOps q ++ if p = q then [.ofCall p c] else [] := by
    intro q
    by_cases hpq : p = q
    · subst hpq
      rw [if_pos rfl]
      simp only [pendingOps, AList.lookup_insert, Option.getD_some]
    · rw [if_neg hpq, List.append_nil]
      simp only [pendingOps, AList.lookup_insert_ne (Ne.symm hpq)]
  constructor
  · intro q send
    have horder := h.order q send
    have hhand : t.inHand q = if p = q then [c] else [] := by simp only [inHand, hissuer]
    have hcalls : CtranIbCtrl.pendingCalls { t with
        rankToPendingOpsMap := t.rankToPendingOpsMap.insert p (t.pendingOps p ++ [.ofCall p c])
        issuer := .idle } q = t.pendingCalls q ++ if p = q then [c] else [] := by
      rw [pendingCalls, hpending, List.filterMap_append]
      by_cases hpq : p = q
      · simp [hpq, pendingCalls]
      · simp [hpq, pendingCalls]
    rw [hhand] at horder
    rw [hcalls, dir_append]
    simp only [inHand, dir, List.filter_nil, List.append_nil, ← List.append_assoc]
    exact horder
  · intro q op hop
    rw [hpending] at hop
    rcases List.mem_append.mp hop with hop | hop
    · exact h.typed q op hop
    · by_cases hpq : p = q
      · rw [if_pos hpq] at hop
        rw [List.mem_singleton.mp hop, PendingOp.call_ofCall]
        rfl
      · rw [if_neg hpq] at hop
        cases hop
  · exact h.ready
  · exact h.once
  · intro q c' hq
    cases hq
  · intro q c' hq
    cases hq
  · intro q hq
    have hpq : p ≠ q := by
      rintro rfl
      rw [hnot] at hq
      cases hq
    rw [hpending, if_neg hpq, List.append_nil]
    exact h.connected q hq

theorem Coherent.toDirect {p : ℕ} (hissuer : t.issuer = .gotVc p c vc)
    (hvc : t.rankToVcMap p = true) (hempty : t.pendingOps p = []) :
    Coherent { t with issuer := .direct p c } where
  order := by
    intro q send
    have horder := h.order q send
    simp only [inHand, hissuer] at horder
    exact horder
  __ := h
  gotVc := by
    intro q c' hq
    cases hq
  direct := by
    intro q c' hq
    cases hq
    exact ⟨hvc, hempty⟩

theorem Coherent.direct' {p : ℕ} (hissuer : t.issuer = .direct p c)
    (hheld : dir c.isSend (t.heldCalls p) = []) :
    Coherent { t.hand p [c] with issuer := .idle } where
  order := by
    intro q send
    have horder := h.order q send
    by_cases hqp : q = p
    · subst hqp
      have hhand : t.inHand q = [c] := by simp only [inHand, hissuer, if_true]
      have hpend : t.pendingCalls q = [] := by
        rw [pendingCalls, (h.direct q c hissuer).2, List.filterMap_nil]
      have hhanded : (t.hand q [c]).handed q = t.handed q ++ [c] := Function.update_self ..
      rw [hhand, hpend] at horder
      change dir send (t.issued q) = dir send ((t.hand q [c]).handed q) ++
        dir send (t.heldCalls q) ++ dir send (t.pendingCalls q) ++ dir send []
      rw [hhanded, hpend, dir_append, horder]
      by_cases hdir : c.isSend = send
      · rw [hdir] at hheld
        rw [hheld]
        simp only [dir, List.filter_nil, List.append_nil]
      · have hother : dir send [c] = [] := by simp [dir, hdir]
        rw [hother]
        simp only [dir, List.filter_nil, List.append_nil]
    · have hhand : t.inHand q = [] := by simp only [inHand, hissuer, if_neg (Ne.symm hqp)]
      have hhanded : (t.hand p [c]).handed q = t.handed q := Function.update_of_ne hqp ..
      rw [hhand] at horder
      change dir send (t.issued q) = dir send ((t.hand p [c]).handed q) ++
        dir send (t.heldCalls q) ++ dir send (t.pendingCalls q) ++ dir send []
      rw [hhanded]
      exact horder
  __ := h
  gotVc := fun _ _ hq => by cases hq
  direct := fun _ _ hq => by cases hq

theorem Coherent.walk {order : List ℕ} (hprog : t.progress = .idle)
    (hkeys : order.Perm t.rankToPendingOpsMap.keys) :
    Coherent { t with progress := .scanning order [] } where
  order := by
    intro q send
    have horder := h.order q send
    simp only [heldCalls, hprog, Progress.ready] at horder
    exact horder
  __ := h
  ready := by
    intro r hr
    cases hr
  once := hkeys.nodup_iff.mpr t.rankToPendingOpsMap.nodupKeys

variable {progress : Progress}

theorem Coherent.toProgress (hready : progress.ready = t.progress.ready)
    (htodo : (todo progress).Sublist (todo t.progress)) : Coherent { t with progress } where
  order := by
    intro q send
    have horder := h.order q send
    simp only [heldCalls] at horder ⊢
    rw [hready]
    exact horder
  __ := h
  ready := by
    simp only [hready]
    exact h.ready
  once := by
    simp only [hready]
    exact h.once.sublist ((List.Sublist.refl _).append htodo)

theorem Coherent.move {p : ℕ} {todo : List ℕ} {ready : List (ℕ × List PendingOp)}
    (hprog : t.progress = .scanning (p :: todo) ready) (hvc : t.rankToVcMap p = true) :
    Coherent { t with
      rankToPendingOpsMap := t.rankToPendingOpsMap.erase p
      progress := .scanning todo (ready ++ [(p, t.pendingOps p)]) } := by
  have honce := h.once
  rw [hprog] at honce
  simp only [Progress.ready, CtranIbCtrl.todo] at honce
  have hpending : ∀ q, CtranIbCtrl.pendingOps { t with
      rankToPendingOpsMap := t.rankToPendingOpsMap.erase p
      progress := .scanning todo (ready ++ [(p, t.pendingOps p)]) } q =
      if p = q then [] else t.pendingOps q := by
    intro q
    by_cases hpq : p = q
    · subst hpq
      rw [if_pos rfl]
      simp only [pendingOps, AList.lookup_erase, Option.getD_none]
    · rw [if_neg hpq]
      simp only [pendingOps, AList.lookup_erase_ne (Ne.symm hpq)]
  constructor
  · intro q send
    have horder := h.order q send
    simp only [heldCalls, hprog, Progress.ready] at horder
    simp only [heldCalls, pendingCalls, hpending, Progress.ready, heldOps_append, heldOps_single,
      List.filterMap_append, dir_append]
    by_cases hpq : p = q
    · subst hpq
      have hnone : heldOps ready p = [] := by
        apply heldOps_of_not_mem
        intro hin
        exact (List.nodup_append.mp honce).2.2 p hin p List.mem_cons_self rfl
      rw [if_pos rfl, if_pos rfl, hnone]
      rw [hnone] at horder
      simpa [dir, pendingCalls, pendingOps, inHand] using horder
    · rw [if_neg hpq, if_neg hpq]
      simpa [dir, pendingCalls, pendingOps, inHand] using horder
  · intro q op hop
    rw [hpending] at hop
    by_cases hpq : p = q
    · rw [if_pos hpq] at hop
      cases hop
    · rw [if_neg hpq] at hop
      exact h.typed q op hop
  · intro r hr
    rcases List.mem_append.mp hr with hr | hr
    · exact h.ready r (by rw [hprog]; exact hr)
    · rw [List.mem_singleton.mp hr]
      exact ⟨h.typed p, hvc⟩
  · simp only [Progress.ready, CtranIbCtrl.todo, List.map_append, List.map_cons, List.map_nil,
      List.append_assoc, List.singleton_append]
    exact honce
  · exact h.gotVc
  · intro q c hq
    rcases h.direct q c hq with ⟨hv, hempty⟩
    refine ⟨hv, ?_⟩
    rw [hpending, hempty, ite_self]
  · intro q hq
    rcases h.connected q hq with ⟨hv, hempty⟩
    refine ⟨hv, ?_⟩
    rw [hpending, hempty, ite_self]

theorem Coherent.post {i p : ℕ} {ready : List (ℕ × List PendingOp)} {ops : List PendingOp}
    (hprog : t.progress = .posting ready) (hi : ready[i]? = some (p, ops))
    (hready : progress.ready = ready.eraseIdx i) (htodo : todo progress = []) :
    Coherent { t.hand p (ops.filterMap PendingOp.call) with progress } := by
  have honce := h.once
  simp only [hprog, Progress.ready, CtranIbCtrl.todo, List.append_nil] at honce
  exact {
    order := by
      intro q send
      have horder := h.order q send
      have hheld := heldOps_eraseIdx honce hi q
      simp only [heldCalls, hprog, Progress.ready] at horder
      change dir send (t.issued q) =
        dir send ((t.hand p (ops.filterMap PendingOp.call)).handed q) ++
          dir send ((heldOps progress.ready q).filterMap PendingOp.call) ++
          dir send (t.pendingCalls q) ++ dir send (t.inHand q)
      rw [hready]
      by_cases hpq : p = q
      · subst hpq
        have hhanded : (t.hand p (ops.filterMap PendingOp.call)).handed p =
            t.handed p ++ ops.filterMap PendingOp.call := Function.update_self ..
        rw [hheld.1, if_pos rfl, hheld.2 rfl, List.append_nil] at horder
        rw [hhanded, dir_append, hheld.2 rfl]
        simpa [dir] using horder
      · have hhanded : (t.hand p (ops.filterMap PendingOp.call)).handed q = t.handed q :=
          Function.update_of_ne (Ne.symm hpq) ..
        rw [hheld.1, if_neg hpq, List.nil_append] at horder
        rw [hhanded]
        exact horder
    __ := h
    ready := by
      intro r hr
      simp only [hready] at hr
      exact h.ready r (by simpa only [hprog, Progress.ready] using List.mem_of_mem_eraseIdx hr)
    once := by
      simp only [hready, htodo, List.append_nil]
      exact honce.sublist ((List.eraseIdx_sublist ..).map Prod.fst) }

theorem Coherent.transition (hop : Allowed past t op) :
    ∃ t', t.step op = .ok t' ∧ Transition t op t' := by
  rcases hop with ⟨hwell, hheld⟩
  revert hwell
  unfold WellFormed
  cases op with
  | updateVcState p => exact fun _ => ⟨_, rfl, .updateVcState p⟩
  | issue p c =>
    simp only [CtranIbCtrl.step, CtranIbCtrl.issue]
    split
    · rename_i hissuer
      intro _
      split
      · exact ⟨t, rfl, .outOfRange p c⟩
      · split
        · exact ⟨_, rfl, .attempt p c hissuer⟩
        · exact ⟨_, rfl, .enter p c hissuer⟩
    · exact fun hwell => absurd rfl hwell
  | bootstrapConnect ok =>
    simp only [CtranIbCtrl.step, CtranIbCtrl.bootstrapConnect]
    split
    · rename_i hissuer
      intro _
      split
      · exact ⟨_, rfl, .connect ok hissuer⟩
      · exact ⟨_, rfl, .giveUp ok hissuer⟩
    · exact fun hwell => absurd rfl hwell
  | addToPendingOpsIfRequired =>
    simp only [CtranIbCtrl.step, CtranIbCtrl.addToPendingOpsIfRequired]
    split
    · rename_i p c vc hissuer
      split
      · rename_i hconn
        rcases h.connected p hconn with ⟨hvc, hempty⟩
        exact fun _ => ⟨_, rfl, .toDirect hissuer hvc hempty⟩
      · rename_i hconn
        split
        · exact fun hwell => absurd rfl hwell
        · split
          · exact fun _ => ⟨_, rfl, .push hissuer (Bool.eq_false_iff.mpr hconn)⟩
          · rename_i hpend
            rw [not_or, Bool.not_eq_false, Option.not_isSome_iff_eq_none] at hpend
            refine fun _ => ⟨_, rfl, .toDirect hissuer (h.gotVc p c ?_) ?_⟩
            · rw [hissuer, hpend.1]
            · rw [pendingOps, hpend.2, Option.getD_none]
    · exact fun hwell => absurd rfl hwell
  | postDirect =>
    simp only [CtranIbCtrl.step, CtranIbCtrl.postDirect]
    split
    · rename_i p c hissuer
      rw [if_neg (by simp [(h.direct p c hissuer).1])]
      exact fun _ => ⟨_, rfl, .direct hissuer⟩
    · exact fun hwell => absurd rfl hwell
  | progressStart order =>
    simp only [CtranIbCtrl.step, CtranIbCtrl.progressStart]
    split
    · rename_i hprog
      split
      · rename_i hkeys
        intro _
        split
        · rename_i hnil
          subst hnil
          exact ⟨t, rfl, .nothing hprog hkeys⟩
        · exact ⟨_, rfl, .walk hprog hkeys⟩
      · exact fun hwell => absurd rfl hwell
    · exact fun hwell => absurd rfl hwell
  | scan =>
    simp only [CtranIbCtrl.step, CtranIbCtrl.scan]
    split
    · exact fun _ => ⟨_, rfl, .ended ‹_› rfl rfl⟩
    · exact fun _ => ⟨_, rfl, .ended ‹_› rfl rfl⟩
    · split
      · exact fun _ => ⟨_, rfl, .take ‹_› ‹_›⟩
      · exact fun _ => ⟨_, rfl, .skip ‹_› (Bool.eq_false_iff.mpr ‹_›)⟩
    · exact fun hwell => absurd rfl hwell
  | post i fails =>
    have hnone : fails = none := by
      unfold NoneHeld at hheld
      cases hissuer : t.issuer <;> simpa [hissuer] using hheld
    subst hnone
    simp only [CtranIbCtrl.step, CtranIbCtrl.post]
    split
    · rename_i ready hprog
      split
      · exact fun hwell => absurd rfl hwell
      · rename_i p ops hi
        have hr := h.ready (p, ops) (by rw [hprog]; exact List.mem_of_getElem? hi)
        rw [if_neg (by simp [hr.2]), mapM_call hr.1]
        refine fun _ => ⟨_, rfl, .post hprog hi ?_ ?_⟩
        · split
          · rename_i hnil
            exact hnil.symm
          · rfl
        · split <;> rfl
    · exact fun hwell => absurd rfl hwell

theorem Coherent.of_transition {t' : CtranIbCtrl}
    (hop : Allowed past t op) (htrans : Transition t op t') : t'.Coherent := by
  have hnone : (∀ p c vc, t.issuer ≠ .gotVc p c vc) → (∀ p c, t.issuer ≠ .direct p c) →
      ∀ q, t.inHand q = [] := by
    intro hgot hdirect q
    unfold inHand
    split
    · exact absurd ‹_› (hgot _ _ _)
    · exact absurd ‹_› (hdirect _ _)
    · rfl
  cases htrans with
  | updateVcState p => exact h.updateVcState p
  | outOfRange | nothing => exact h
  | attempt p c hi =>
    exact h.toIssuer (hnone (by simp [hi]) (by simp [hi])) (fun _ => rfl) nofun nofun
  | enter p c hi => exact h.enter (hnone (by simp [hi]) (by simp [hi])) id
  | connect ok hi =>
    exact (h.updateVcState _).enter (hnone (by simp [hi]) (by simp [hi])) fun _ =>
      Function.update_self ..
  | giveUp ok hi =>
    exact h.toIssuer (hnone (by simp [hi]) (by simp [hi])) (fun _ => rfl) nofun nofun
  | toDirect hi hvc hempty => exact h.toDirect hi hvc hempty
  | push hi hnot => exact h.push hi hnot
  | direct hi =>
    have hheld := hop.2
    simp only [NoneHeld, hi] at hheld
    exact h.direct' hi hheld
  | walk hprog hkeys => exact h.walk hprog hkeys
  | ended hprog hready htodo =>
    exact h.toProgress (by rw [hprog]; exact hready) (by rw [htodo]; exact List.nil_sublist _)
  | skip hprog hvc =>
    refine h.toProgress (by rw [hprog]; rfl) ?_
    rw [hprog]
    exact List.sublist_cons_self ..
  | take hprog hvc => exact h.move hprog hvc
  | post hprog hi hready htodo => exact h.post hprog hi hready htodo

theorem Coherent.step (hop : Allowed past t op) : ∃ t', t.step op = .ok t' ∧ t'.Coherent := by
  rcases h.transition hop with ⟨t', hstep, htrans⟩
  exact ⟨t', hstep, h.of_transition hop htrans⟩

end Steps

/-! ### A walk of the map takes everything it finds -/

/-- `n` operations of a direction are on their way to a peer whose connection is there: with the
connection or out of the map, or still in the map of which the walk has not passed the peer. -/
structure Settled (p : ℕ) (send : Bool) (n : ℕ) (t : CtranIbCtrl) : Prop where
  vc : t.rankToVcMap p = true
  taken : n ≤ (dir send (t.handed p)).length + (dir send (t.heldCalls p)).length ∨
    p ∈ todo t.progress ∧
      n ≤ (dir send (t.handed p)).length + (dir send (t.pendingCalls p)).length

theorem length_dir_append (send : Bool) (cs cs' : List VcCall) :
    (dir send (cs ++ cs')).length = (dir send cs).length + (dir send cs').length := by
  rw [dir_append, List.length_append]

section Settling

variable {t : CtranIbCtrl} {p n : ℕ} {send : Bool} {t' : CtranIbCtrl}

theorem Settled.of_ge (h : Settled p send n t)
    (hvc : t.rankToVcMap p = true → t'.rankToVcMap p = true) (hprog : t'.progress = t.progress)
    (hhanded : (dir send (t.handed p)).length ≤ (dir send (t'.handed p)).length)
    (hpending : (dir send (t.pendingCalls p)).length ≤ (dir send (t'.pendingCalls p)).length) :
    Settled p send n t' where
  vc := hvc h.vc
  taken := by
    have hheld : t'.heldCalls p = t.heldCalls p := by rw [heldCalls, heldCalls, hprog]
    rw [hheld, hprog]
    rcases h.taken with h | ⟨htodo, h⟩
    · left
      omega
    · right
      exact ⟨htodo, by omega⟩

theorem updateVcState_mono (q : ℕ) (h : t.rankToVcMap p = true) :
    (t.updateVcState q).rankToVcMap p = true := by
  by_cases hpq : p = q
  · subst hpq
    exact Function.update_self ..
  · exact (Function.update_of_ne hpq ..).trans h

theorem length_hand (t : CtranIbCtrl) (p q : ℕ) (send : Bool) (cs : List VcCall) :
    (dir send ((t.hand q cs).handed p)).length =
      (dir send (t.handed p)).length + if q = p then (dir send cs).length else 0 := by
  by_cases hqp : q = p
  · subst hqp
    have hhanded : (t.hand q cs).handed q = t.handed q ++ cs := Function.update_self ..
    rw [hhanded, length_dir_append, if_pos rfl]
  · have hhanded : (t.hand q cs).handed p = t.handed p := Function.update_of_ne (Ne.symm hqp) ..
    rw [hhanded, if_neg hqp, Nat.add_zero]

theorem Settled.of_idle (h : Settled p send n t) (hidle : t.progress = .idle) :
    n ≤ (dir send (t.handed p)).length := by
  rcases h.taken with h | ⟨htodo, _⟩
  · rw [heldCalls, hidle] at h
    exact h
  · rw [hidle] at htodo
    cases htodo

theorem settled_progressStart {order : List ℕ} (hvc : t.rankToVcMap p = true)
    (htrans : Transition t (.progressStart order) t') : Settled p send
      ((dir send (t.handed p)).length + (dir send (t.pendingCalls p)).length) t' := by
  have hmem : order.Perm t.rankToPendingOpsMap.keys → p ∉ order → t.pendingCalls p = [] := by
    intro hkeys hnot
    rw [hkeys.mem_iff] at hnot
    have hlook : t.rankToPendingOpsMap.lookup p = none := AList.lookup_eq_none.mpr hnot
    rw [pendingCalls, pendingOps, hlook]
    rfl
  cases htrans with
  | nothing h hkeys =>
    refine ⟨hvc, Or.inl ?_⟩
    rw [hmem hkeys List.not_mem_nil]
    exact Nat.le_add_right _ _
  | walk h hkeys =>
    refine ⟨hvc, ?_⟩
    by_cases hin : p ∈ order
    · exact Or.inr ⟨hin, Nat.le_refl _⟩
    · left
      rw [hmem hkeys hin]
      exact Nat.le_add_right _ _

theorem Settled.take {q : ℕ} {todo : List ℕ} {ready : List (ℕ × List PendingOp)}
    (h : Settled p send n t) (hprog : t.progress = .scanning (q :: todo) ready) :
    Settled p send n { t with
      rankToPendingOpsMap := t.rankToPendingOpsMap.erase q
      progress := .scanning todo (ready ++ [(q, t.pendingOps q)]) } := by
  have htaken := h.taken
  rw [heldCalls, hprog] at htaken
  simp only [Progress.ready, CtranIbCtrl.todo] at htaken
  refine ⟨h.vc, ?_⟩
  simp only [heldCalls, Progress.ready, CtranIbCtrl.todo, heldOps_append, heldOps_single,
    List.filterMap_append, length_dir_append]
  by_cases hqp : q = p
  · subst hqp
    left
    rw [if_pos rfl]
    rcases htaken with htaken | ⟨_, htaken⟩
    · omega
    · simp only [pendingCalls] at htaken
      omega
  · rcases htaken with htaken | ⟨htodo, htaken⟩
    · left
      omega
    · right
      refine ⟨(List.mem_cons.mp htodo).resolve_left (Ne.symm hqp), ?_⟩
      simp only [pendingCalls, pendingOps, AList.lookup_erase_ne (Ne.symm hqp)]
      exact htaken

theorem Settled.post {i q : ℕ} {ready : List (ℕ × List PendingOp)} {ops : List PendingOp}
    {progress : Progress} (hcoh : t.Coherent) (h : Settled p send n t)
    (hprog : t.progress = .posting ready) (hi : ready[i]? = some (q, ops))
    (hready : progress.ready = ready.eraseIdx i) :
    Settled p send n { t.hand q (ops.filterMap PendingOp.call) with progress } := by
  have htaken := h.taken
  have honce := hcoh.once
  simp only [hprog, Progress.ready, CtranIbCtrl.todo, List.append_nil] at honce
  rw [heldCalls, hprog] at htaken
  simp only [Progress.ready, CtranIbCtrl.todo, List.not_mem_nil, false_and, or_false] at htaken
  refine ⟨h.vc, Or.inl ?_⟩
  have hlen := length_hand t p q send (ops.filterMap PendingOp.call)
  rw [(heldOps_eraseIdx honce hi p).1, List.filterMap_append, length_dir_append] at htaken
  simp only [heldCalls, hready]
  change n ≤ (dir send ((t.hand q (ops.filterMap PendingOp.call)).handed p)).length + _
  by_cases hqp : q = p
  · rw [if_pos hqp] at hlen htaken
    omega
  · rw [if_neg hqp] at hlen htaken
    simp only [List.filterMap_nil, dir, List.filter_nil, List.length_nil] at htaken
    simp only [dir] at hlen ⊢
    omega

theorem Settled.step {op : Op} (hcoh : t.Coherent) (h : Settled p send n t)
    (htrans : Transition t op t') : Settled p send n t' := by
  cases htrans with
  | updateVcState q => exact h.of_ge (updateVcState_mono q) rfl (Nat.le_refl _) (Nat.le_refl _)
  | outOfRange | nothing => exact h
  | attempt | enter | giveUp | toDirect =>
    exact h.of_ge id rfl (Nat.le_refl _) (Nat.le_refl _)
  | connect => exact h.of_ge (updateVcState_mono _) rfl (Nat.le_refl _) (Nat.le_refl _)
  | @push q c vc hi hnot =>
    refine h.of_ge id rfl (Nat.le_refl _) ?_
    by_cases hpq : p = q
    · subst hpq
      simp only [pendingCalls, pendingOps, AList.lookup_insert, Option.getD_some,
        List.filterMap_append, length_dir_append]
      exact Nat.le_add_right _ _
    · simp only [pendingCalls, pendingOps, AList.lookup_insert_ne hpq]
      exact Nat.le_refl _
  | @direct q c hi =>
    refine h.of_ge id rfl ?_ (Nat.le_refl _)
    have hlen := length_hand t p q send [c]
    change _ ≤ (dir send ((t.hand q [c]).handed p)).length
    omega
  | walk hprog => exact ⟨h.vc, Or.inl (Nat.le_add_right_of_le (h.of_idle hprog))⟩
  | ended hprog hready htodo =>
    refine ⟨h.vc, Or.inl ?_⟩
    rcases h.taken with htaken | ⟨htodo', -⟩
    · rw [heldCalls, hprog] at htaken
      simp only [heldCalls, hready]
      exact htaken
    · rw [hprog] at htodo'
      cases htodo'
  | skip hprog hvc =>
    refine ⟨h.vc, ?_⟩
    rcases h.taken with htaken | ⟨htodo, htaken⟩
    · rw [heldCalls, hprog] at htaken
      exact Or.inl htaken
    · rw [hprog] at htodo
      refine Or.inr ⟨(List.mem_cons.mp htodo).resolve_left ?_, htaken⟩
      rintro rfl
      rw [h.vc] at hvc
      cases hvc
  | take hprog hvc => exact h.take hprog
  | post hprog hi hready htodo => exact h.post hcoh hprog hi hready

theorem issued_step {op : Op} (htrans : Transition t op t') (p : ℕ) : t.issued p <+: t'.issued p := by
  have henter : ∀ (u : CtranIbCtrl) (q : ℕ) (c : VcCall) (vc : Bool),
      u.issued p <+: (u.enter q c vc).issued p := by
    intro u q c vc
    by_cases hpq : p = q
    · subst hpq
      have hissued : (u.enter p c vc).issued p = u.issued p ++ [c] := Function.update_self ..
      rw [hissued]
      exact List.prefix_append ..
    · have hissued : (u.enter q c vc).issued p = u.issued p := Function.update_of_ne hpq ..
      rw [hissued]
  cases htrans with
  | enter q c => exact henter t q c _
  | @connect ok q c hi => exact henter (t.updateVcState q) q c true
  | _ => exact List.prefix_rfl

end Settling

/-! ### Runs -/

/-- A call of `progressPendingOps` begun in `t`, where a peer's connection is there, has handed
over by its end in `t'` what was pending for the peer. -/
def TakesPending (t t' : CtranIbCtrl) : Prop :=
  t'.progress = .idle → ∀ p send, t.rankToVcMap p = true →
    dir send (t.handed p) ++ dir send (t.pendingCalls p) <+: dir send (t'.handed p)

theorem Coherent.takesPending {t t' : CtranIbCtrl} (h : t.Coherent) (h' : t'.Coherent)
    (hidle : t.progress = .idle) (hissued : ∀ p, t.issued p <+: t'.issued p)
    (hsettled : ∀ p send, t.rankToVcMap p = true → Settled p send
      ((dir send (t.handed p)).length + (dir send (t.pendingCalls p)).length) t') :
    TakesPending t t' := by
  intro hidle' p send hvc
  have hlen := (hsettled p send hvc).of_idle hidle'
  have horder := h.order p send
  rw [heldCalls, hidle] at horder
  have hbefore : dir send (t.handed p) ++ dir send (t.pendingCalls p) <+: dir send (t'.issued p) := by
    apply List.IsPrefix.trans _ ((hissued p).filter _)
    refine ⟨dir send (t.inHand p), ?_⟩
    simpa [dir, Progress.ready, heldOps] using horder.symm
  have hafter : dir send (t'.handed p) <+: dir send (t'.issued p) := by
    rw [h'.order p send]
    simp only [List.append_assoc]
    exact List.prefix_append ..
  apply List.prefix_of_prefix_length_le hbefore hafter
  rw [List.length_append]
  exact hlen

/-- The connections get the sends, and the receives, of the issuing thread in the order of their
issue, each once, and a call of `progressPendingOps` leaves nothing behind that it found. -/
theorem inOrder_of_noneHeld (rank nRanks : ℕ) (connected : ℕ → Bool) (ops more : List Op)
    (hadm : Admissible step Allowed [] (init rank nRanks connected) (ops ++ more)) :
    ∃ t t', run step (init rank nRanks connected) ops = .ok t ∧ run step t more = .ok t' ∧
      t.InOrder ∧ t'.InOrder ∧
      ∀ order rest, more = .progressStart order :: rest → TakesPending t t' := by
  rcases run_invariant (fun _ t => Coherent t) (fun _ _ _ hcoh hop => hcoh.step hop) ops
    (coherent_init rank nRanks connected) hadm.take with ⟨t, hrun, hcoh⟩
  have hmore := hadm.drop hrun
  rcases run_invariant_from (fun _ t => Coherent t) (fun _ _ _ hcoh hop => hcoh.step hop) more
    hcoh hmore with ⟨t', hrun', hcoh'⟩
  refine ⟨t, t', hrun, hrun', hcoh.order, hcoh'.order, ?_⟩
  rintro order rest rfl
  rcases hcoh.transition hmore.1 with ⟨u, hstep, htrans⟩
  have hcohu := hcoh.of_transition hmore.1 htrans
  have hidle : t.progress = .idle := by cases htrans <;> assumption
  have hrest := hmore.2
  rw [hstep] at hrest
  rw [run_cons_ok rest hstep] at hrun'
  have hwalk : ∃ u', run step u rest = .ok u' ∧ (u'.Coherent ∧ (∀ p, t.issued p <+: u'.issued p) ∧
      ∀ p send, t.rankToVcMap p = true → Settled p send
        ((dir send (t.handed p)).length + (dir send (t.pendingCalls p)).length) u') := by
    apply run_invariant_from (fun _ u => u.Coherent ∧ (∀ p, t.issued p <+: u.issued p) ∧
      ∀ p send, t.rankToVcMap p = true → Settled p send
        ((dir send (t.handed p)).length + (dir send (t.pendingCalls p)).length) u) _ rest _ hrest
    · rintro past v op ⟨hcohv, hissued, hsettled⟩ hop
      rcases hcohv.transition hop with ⟨v', hv', htrans'⟩
      exact ⟨v', hv', hcohv.of_transition hop htrans',
        fun p => (hissued p).trans (issued_step htrans' p),
        fun p send hvc => (hsettled p send hvc).step hcohv htrans'⟩
    · exact ⟨hcohu, issued_step htrans, fun p send hvc => settled_progressStart hvc htrans⟩
  rcases hwalk with ⟨u', hu', _, hissued, hsettled⟩
  rw [hu', Except.ok.injEq] at hrun'
  subst hrun'
  exact hcoh.takesPending hcoh' hidle hissued hsettled

instance decidableWellFormed (past : List Op) (t : CtranIbCtrl) (op : Op) :
    Decidable (WellFormed past t op) :=
  match h : t.step op with
  | .ok _ => isTrue (by simp [WellFormed, h])
  | .error f => decidable_of_iff (f ≠ .notEnabled) (by simp [WellFormed, h])

instance decidableNoneHeld (t : CtranIbCtrl) (op : Op) : Decidable (t.NoneHeld op) :=
  match op, h : t.issuer with
  | .postDirect, .direct p c =>
    decidable_of_iff (dir c.isSend (t.heldCalls p) = []) (by simp [NoneHeld, h])
  | .post _ fails, .idle | .post _ fails, .connecting .. | .post _ fails, .gotVc ..
  | .post _ fails, .direct .. => decidable_of_iff (fails = none) (by simp [NoneHeld])
  | .postDirect, .idle | .postDirect, .connecting .. | .postDirect, .gotVc .. =>
    isTrue (by simp [NoneHeld, h])
  | .updateVcState .., _ | .issue .., _ | .bootstrapConnect .., _ | .addToPendingOpsIfRequired, _
  | .progressStart .., _ | .scan, _ => isTrue (by simp [NoneHeld])

instance decidableAllowed (past : List Op) (t : CtranIbCtrl) (op : Op) :
    Decidable (Allowed past t op) :=
  inferInstanceAs (Decidable (_ ∧ _))

def waiting : List Op :=
  [.issue 0 (.isendCtrlMsg 7 16 64 1), .addToPendingOpsIfRequired, .updateVcState 0]

def handingOver : List Op :=
  [.progressStart [0], .scan, .scan, .post 0 none, .issue 0 (.isendCtrlMsg 7 16 64 2),
    .addToPendingOpsIfRequired, .postDirect]

/-- A send that waited for its connection, handed over by the other thread, and one issued after. -/
theorem inOrder_of_noneHeld_connected :
    ∃ t t', run step (init 1 2 fun _ => false) waiting = .ok t ∧ run step t handingOver = .ok t' ∧
      t.InOrder ∧ t'.InOrder ∧
      ∀ order rest, handingOver = .progressStart order :: rest → TakesPending t t' :=
  inOrder_of_noneHeld 1 2 (fun _ => false) waiting handingOver (by decide)

/-- The second send finds the map empty while the first is on its way out of it. -/
def overtaking : List Op :=
  [.issue 0 (.isendCtrlMsg 7 16 64 1), .addToPendingOpsIfRequired, .updateVcState 0,
    .progressStart [0], .scan, .scan, .issue 0 (.isendCtrlMsg 7 16 64 2),
    .addToPendingOpsIfRequired, .postDirect]

theorem not_inOrder_of_wellFormed :
    ¬ ∀ (rank nRanks : ℕ) (connected : ℕ → Bool) (ops : List Op),
      Admissible step WellFormed [] (init rank nRanks connected) ops →
      ∃ t, run step (init rank nRanks connected) ops = .ok t ∧ t.InOrder := by
  intro h
  rcases h 1 2 (fun _ => false) overtaking (by decide) with ⟨t, hrun, horder⟩
  have hsends := horder 0 true
  have hissued : (run step (init 1 2 fun _ => false) overtaking).toOption.map
      (fun t => (t.issued 0, t.handed 0)) = some ([.isendCtrlMsg 7 16 64 1, .isendCtrlMsg 7 16 64 2],
        [.isendCtrlMsg 7 16 64 2]) := by decide
  simp only [hrun, Except.toOption, Option.map_some, Option.some.injEq, Prod.mk.injEq] at hissued
  rw [hissued.1, hissued.2] at hsends
  simp [dir, VcCall.isSend] at hsends

end CtranIbCtrl
end TorchComms.CtranIb
