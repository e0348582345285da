import TorchComms.Ibverbx.VirtualQpRuns

/-! # The message cap of a data QP

A completion hands the slot it frees to the loop as an index that is not checked again. SENDs at the
front of the queue fill QP 0 without using the index up, and a data transfer behind them then
takes a slot that is gone. Nothing else exceeds the cap.
-/
namespace TorchComms.Ibverbx

open Foundation

namespace IbvVirtualQp

/-- A data transfer, which is spread over the data QPs; any other request stays on QP 0. -/
def Spread (w : VirtualSendWr) : Bool :=
  match w.wr.opcode with
  | .IBV_WR_RDMA_WRITE | .IBV_WR_RDMA_WRITE_WITH_IMM | .IBV_WR_RDMA_READ => true
  | _ => false

/-- The requests at the front of the queue that stay on QP 0, and those behind them. -/
def leading (ws : List VirtualSendWr) : List VirtualSendWr := ws.takeWhile fun w => !Spread w

def behind (ws : List VirtualSendWr) : List VirtualSendWr := ws.dropWhile fun w => !Spread w

def segmentsLeft (ws : List VirtualSendWr) : ℤ := (ws.map VirtualSendWr.remainingMsgCnt).sum

/-- With `n` messages on QP 0 the requests at the front fill it exactly, and a data transfer
follows. -/
def Fills (v : IbvVirtualQp) (n : ℕ) : Prop :=
  leading v.pendingSendVirtualWrQue_ ≠ [] ∧ behind v.pendingSendVirtualWrQue_ ≠ [] ∧
    (∀ w ∈ leading v.pendingSendVirtualWrQue_, 0 < w.remainingMsgCnt) ∧
    n + segmentsLeft (leading v.pendingSendVirtualWrQue_) = v.maxMsgCntPerQp_

instance (v : IbvVirtualQp) (n : ℕ) : Decidable (v.Fills n) := inferInstanceAs (Decidable (_ ∧ _))

/-- The request takes a message off QP 0, and what is left fills QP 0 exactly. -/
def Overfills (v : IbvVirtualQp) (request : VirtualQpRequest) : Prop :=
  v.idxOfQpNum request.physicalQpNum = .ok (some 0) ∧
    ∃ q ∈ v.physicalQps_[0]?, (∃ st ∈ q.physicalSendWrStatus_.head?,
      st.physicalWrId = request.wrId) ∧ v.Fills q.physicalSendWrStatus_.tail.length

instance (v : IbvVirtualQp) (request : VirtualQpRequest) : Decidable (v.Overfills request) :=
  inferInstanceAs (Decidable (_ ∧ _))

/-- No step is the completion of a message on QP 0 that overfills it. -/
def Careful (_ : List Op) (v : IbvVirtualQp) : Op → Prop
  | .sendCompletion qpIdx => ∀ r ∈ v.nextSend qpIdx, ¬ r.2.Overfills r.1
  | _ => True

instance (past : List Op) (v : IbvVirtualQp) (op : Op) : Decidable (Careful past v op) := by
  cases op with
  | sendCompletion qpIdx =>
    exact inferInstanceAs (Decidable (∀ r ∈ v.nextSend qpIdx, ¬ r.2.Overfills r.1))
  | _ => exact isTrue trivial

/-! ### What is kept -/

/-- The sends of a virtual QP with room for `c` messages on each data QP. -/
structure SendBounded (c : ℕ) (v : IbvVirtualQp) : Prop where
  limit : v.maxMsgCntPerQp_ = c
  send : ∀ q ∈ v.physicalQps_, q.physicalSendWrStatus_.length ≤ c
  extra : ∀ w ∈ v.pendingSendVirtualWrQue_, w.sendExtraNotifyImm → Spread w

structure RecvBounded (c : ℕ) (v : IbvVirtualQp) : Prop where
  limit : v.maxMsgCntPerQp_ = c
  recv : ∀ q ∈ v.physicalQps_, q.physicalRecvWrStatus_.length ≤ c
  fresh : v.loadBalancingScheme_ = .DQPLB → v.dqplbReceiverInitialized_ = false →
    ∀ q ∈ v.physicalQps_, q.physicalRecvWrStatus_ = []

/-- What the bound of the sends is about is the same. -/
structure SameSend (v v' : IbvVirtualQp) : Prop where
  limit : v'.maxMsgCntPerQp_ = v.maxMsgCntPerQp_
  pending : v'.pendingSendVirtualWrQue_ = v.pendingSendVirtualWrQue_
  status : v'.physicalQps_.map IbvQp.physicalSendWrStatus_ =
    v.physicalQps_.map IbvQp.physicalSendWrStatus_

structure SameRecv (v v' : IbvVirtualQp) : Prop where
  limit : v'.maxMsgCntPerQp_ = v.maxMsgCntPerQp_
  scheme : v'.loadBalancingScheme_ = v.loadBalancingScheme_
  initialized : v'.dqplbReceiverInitialized_ = v.dqplbReceiverInitialized_
  status : v'.physicalQps_.map IbvQp.physicalRecvWrStatus_ =
    v.physicalQps_.map IbvQp.physicalRecvWrStatus_

variable {c i n : ℕ} {v v' v'' : IbvVirtualQp} {q q' : IbvQp} {w : VirtualSendWr}
  {ws rest : List VirtualSendWr} {k : Option ℕ}

theorem SameSend.refl (v : IbvVirtualQp) : SameSend v v := ⟨rfl, rfl, rfl⟩

theorem SameRecv.refl (v : IbvVirtualQp) : SameRecv v v := ⟨rfl, rfl, rfl, rfl⟩

theorem SameSend.trans (h : SameSend v v') (h' : SameSend v' v'') : SameSend v v'' :=
  ⟨h'.limit.trans h.limit, h'.pending.trans h.pending, h'.status.trans h.status⟩

theorem SameRecv.trans (h : SameRecv v v') (h' : SameRecv v' v'') : SameRecv v v'' :=
  ⟨h'.limit.trans h.limit, h'.scheme.trans h.scheme, h'.initialized.trans h.initialized,
    h'.status.trans h.status⟩

variable {f : IbvQp → List PhysicalWrStatus} {response : VirtualQpResponse}

variable {sts : List PhysicalWrStatus} {st : PhysicalWrStatus} {qs qs' : List IbvQp}
    {o k' : Option ℕ} {wr : IbvSendWr} {b : Bool}

theorem mem_of_map_eq
    (h : qs'.map f = qs.map f) (hq : q ∈ qs') : ∃ p ∈ qs, f p = f q := by
  have hmem : f q ∈ qs.map f := h ▸ List.mem_map_of_mem hq
  exact List.mem_map.mp hmem

theorem getElem?_of_map_eq
    (h : qs'.map f = qs.map f) (hq : qs'[i]? = some q) : ∃ p, qs[i]? = some p ∧ f p = f q := by
  have hget := congrArg (fun l => l[i]?) h
  simp only [List.getElem?_map, hq, Option.map_some] at hget
  exact Option.map_eq_some_iff.mp hget.symm

theorem SendBounded.of_same (hb : SendBounded c v) (h : SameSend v v') : SendBounded c v' where
  limit := h.limit.trans hb.limit
  send q hq := by
    rcases mem_of_map_eq h.status hq with ⟨p, hp, heq⟩
    rw [← heq]
    exact hb.send p hp
  extra := by
    rw [h.pending]
    exact hb.extra

theorem RecvBounded.of_same (hb : RecvBounded c v) (h : SameRecv v v') : RecvBounded c v' where
  limit := h.limit.trans hb.limit
  recv q hq := by
    rcases mem_of_map_eq h.status hq with ⟨p, hp, heq⟩
    rw [← heq]
    exact hb.recv p hp
  fresh hscheme hinit q hq := by
    rcases mem_of_map_eq h.status hq with ⟨p, hp, heq⟩
    rw [← heq]
    exact hb.fresh (h.scheme ▸ hscheme) (h.initialized ▸ hinit) p hp

theorem map_set_same {qs : List IbvQp}
    (hq : qs[i]? = some q) (hf : f q' = f q) : (qs.set i q').map f = qs.map f := by
  rcases List.getElem?_eq_some_iff.mp hq with ⟨hlt, rfl⟩
  have hmap := List.set_getElem_self (i := i) (show i < (qs.map f).length by simpa using hlt)
  rwa [List.getElem_map, ← hf, ← List.map_set] at hmap

theorem hasRoom_iff (hc : c < 2 ^ 64) (h : v.maxMsgCntPerQp_ = c) : v.hasRoom n ↔ n < c := by
  have hu : u64 (c : ℤ) = c := by
    simp only [u64]
    omega
  rw [hasRoom, h, hu, decide_eq_true_iff]

/-! ### The requests at the front -/

theorem leading_spread (hw : Spread w) : leading (w :: rest) = [] := by
  rw [leading, List.takeWhile_cons_of_neg (by simpa using hw)]

theorem leading_stays (hw : Spread w = false) : leading (w :: rest) = w :: leading rest := by
  rw [leading, List.takeWhile_cons_of_pos (by simpa using hw)]
  rfl

theorem behind_spread (hw : Spread w) : behind (w :: rest) = w :: rest := by
  rw [behind, List.dropWhile_cons_of_neg (by simpa using hw)]

theorem behind_stays (hw : Spread w = false) : behind (w :: rest) = behind rest := by
  rw [behind, List.dropWhile_cons_of_pos (by simpa using hw)]
  rfl

theorem advanced_plain (hextra : w.sendExtraNotifyImm = false) (rest : List VirtualSendWr)
    (length : ℕ) : advanced w rest length = if w.remainingMsgCnt - 1 = 0 then rest else { w with
      offset := i32 (u32 (w.offset + length)), remainingMsgCnt := w.remainingMsgCnt - 1 } :: rest := by
  simp only [advanced, hextra, Bool.false_eq_true, and_false, or_false]

theorem segmentsLeft_cons (w : VirtualSendWr) (ws : List VirtualSendWr) :
    segmentsLeft (w :: ws) = w.remainingMsgCnt + segmentsLeft ws := List.sum_cons

/-! ### Choosing a QP -/

theorem scanSendQps_of_ok {next : ℕ} {r : Option ℕ × ℕ} (h : v.scanSendQps n next = .ok r) :
    ∀ i ∈ r.1, ∃ q, v.physicalQps_[i]? = some q ∧ v.hasRoom q.physicalSendWrStatus_.length := by
  induction n generalizing next with
  | zero =>
    cases h
    intro i hi
    cases hi
  | succ n ih =>
    rw [scanSendQps] at h
    split at h
    · cases h
    · rename_i q hq
      split at h
      · rename_i hroom
        cases h
        intro i hi
        cases hi
        exact ⟨q, hq, hroom⟩
      · exact ih h

theorem findAvailableSendQp_of_ok {o : Option ℕ} (hmax : v.maxMsgCntPerQp_ ≠ -1)
    (h : v.findAvailableSendQp = .ok (o, v')) :
    (∃ n, v' = { v with nextSendPhysicalQpIdx_ := n }) ∧
      ∀ i ∈ o, ∃ q, v.physicalQps_[i]? = some q ∧ v.hasRoom q.physicalSendWrStatus_.length := by
  rw [findAvailableSendQp, if_neg hmax] at h
  cases hscan : v.scanSendQps v.physicalQps_.length v.nextSendPhysicalQpIdx_ with
  | error e =>
    rw [hscan] at h
    cases h
  | ok r =>
    rw [hscan] at h
    cases h
    exact ⟨⟨_, rfl⟩, scanSendQps_of_ok hscan⟩

theorem selectSendQp_spread (hw : Spread w) (hmax : v.maxMsgCntPerQp_ ≠ -1)
    (h : v.selectSendQp k w = .ok (o, v', k')) :
    (∃ n, v' = { v with nextSendPhysicalQpIdx_ := n }) ∧ k' = none ∧ ∀ i ∈ o, k = some i ∨
      ∃ q, v.physicalQps_[i]? = some q ∧ v.hasRoom q.physicalSendWrStatus_.length := by
  cases k with
  | none =>
    have hselect : v.selectSendQp none w = v.findAvailableSendQp.map fun r => (r.1, r.2, none) := by
      cases hop : w.wr.opcode <;> simp only [Spread, hop, Bool.false_eq_true] at hw <;>
        simp only [selectSendQp, hop]
    rw [hselect] at h
    cases hfind : v.findAvailableSendQp with
    | error e =>
      rw [hfind] at h
      cases h
    | ok r =>
      rw [hfind] at h
      cases h
      rcases findAvailableSendQp_of_ok hmax hfind with ⟨hv, hroom⟩
      exact ⟨hv, rfl, fun i hi => Or.inr (hroom i hi)⟩
  | some i =>
    have hselect : v.selectSendQp (some i) w = .ok (some i, v, none) := by
      cases hop : w.wr.opcode <;> simp only [Spread, hop, Bool.false_eq_true] at hw <;>
        simp only [selectSendQp, hop]
    rw [hselect] at h
    cases h
    exact ⟨⟨_, rfl⟩, rfl, fun j hj => Or.inl hj⟩

theorem selectSendQp_stays (hw : Spread w = false) (h : v.selectSendQp k w = .ok (o, v', k')) :
    v' = v ∧ k' = k ∧ ∀ i ∈ o, i = 0 ∧
      ∃ q, v.physicalQps_[0]? = some q ∧ v.hasRoom q.physicalSendWrStatus_.length := by
  cases hq : v.physicalQps_[0]? with
  | none =>
    have hselect : v.selectSendQp k w = .error .outOfRange := by
      cases hop : w.wr.opcode <;> simp only [Spread, hop, reduceCtorEq] at hw <;>
        simp only [selectSendQp, hop, hq]
    rw [hselect] at h
    cases h
  | some q =>
    have hselect : v.selectSendQp k w =
        .ok (if v.hasRoom q.physicalSendWrStatus_.length then some 0 else none, v, k) := by
      cases hop : w.wr.opcode <;> simp only [Spread, hop, reduceCtorEq] at hw <;>
        simp only [selectSendQp, hop, hq]
    rw [hselect] at h
    cases h
    refine ⟨rfl, rfl, ?_⟩
    intro i hi
    split at hi
    · rename_i hroom
      cases hi
      exact ⟨rfl, q, rfl, hroom⟩
    · cases hi

/-! ### The loop -/

/-- The index handed in still stands for a free slot when a data transfer comes to the front. -/
def Slot (c : ℕ) (v : IbvVirtualQp) (k : Option ℕ) : Prop :=
  ∀ i ∈ k, ∀ q, v.physicalQps_[i]? = some q →
    (i ≠ 0 → q.physicalSendWrStatus_.length < c) ∧
    (i = 0 → behind v.pendingSendVirtualWrQue_ ≠ [] →
      (∀ w ∈ leading v.pendingSendVirtualWrQue_, 0 < w.remainingMsgCnt) →
      q.physicalSendWrStatus_.length + segmentsLeft (leading v.pendingSendVirtualWrQue_) ≠ c)

theorem slot_none (c : ℕ) (v : IbvVirtualQp) : Slot c v none := by
  intro i hi
  cases hi

theorem SendBounded.push (hb : SendBounded c v) (hx : w.sendExtraNotifyImm → Spread w) :
    SendBounded c { v with pendingSendVirtualWrQue_ := v.pendingSendVirtualWrQue_ ++ [w] } where
  __ := hb
  extra x hmem := by
    rcases List.mem_append.mp hmem with hmem | hmem
    · exact hb.extra x hmem
    · rw [List.mem_singleton.mp hmem]
      exact hx

theorem SendBounded.segment (hb : SendBounded c v) (hpend : v.pendingSendVirtualWrQue_ = w :: rest)
    (hq : v.physicalQps_[i]? = some q) (hlt : q.physicalSendWrStatus_.length < c)
    (h : v.postSegment i w rest = .ok v') :
    SendBounded c v' ∧ SameRecv v v' ∧ (∃ wr, v'.physicalQps_ =
      v.physicalQps_.set i (q.postSend wr w.wr.wr_id)) ∧
      ∃ length, v'.pendingSendVirtualWrQue_ = advanced w rest length := by
  rcases postSegment_of_ok h with ⟨p, wr, g, tracker, ns, hp, _, _, _, _, _, _, rfl⟩
  rw [hq, Option.some.injEq] at hp
  subst hp
  refine ⟨⟨hb.limit, ?_, ?_⟩, ⟨rfl, rfl, rfl, map_set_same hq rfl⟩, ⟨wr, rfl⟩, ⟨_, rfl⟩⟩
  · intro p hp
    rcases List.mem_or_eq_of_mem_set hp with hp | rfl
    · exact hb.send p hp
    · rw [IbvQp.postSend, List.length_append]
      exact hlt
  · intro x hx
    have hw := hb.extra w (by simp [hpend])
    simp only [advanced] at hx
    split at hx
    · exact hb.extra x (by simp [hpend, hx])
    · rcases List.mem_cons.mp hx with rfl | hx
      · exact hw
      · exact hb.extra x (by simp [hpend, hx])

theorem Slot.stays (hslot : Slot c v k) (hpend : v.pendingSendVirtualWrQue_ = w :: rest)
    (hw : Spread w = false) (hextra : w.sendExtraNotifyImm = false)
    (hq : v.physicalQps_[0]? = some q) {length : ℕ}
    (hqps : v'.physicalQps_ = v.physicalQps_.set 0 (q.postSend wr w.wr.wr_id))
    (hque : v'.pendingSendVirtualWrQue_ = advanced w rest length) : Slot c v' k := by
  intro i hi p hp
  rw [hqps, List.getElem?_set] at hp
  by_cases hzero : i = 0
  · subst hzero
    rw [if_pos rfl, if_pos (List.getElem?_eq_some_iff.mp hq).1, Option.some.injEq] at hp
    subst hp
    refine ⟨fun h => absurd rfl h, ?_⟩
    intro _ hbehind hleft
    have hold := (hslot 0 hi q hq).2 rfl
    rw [hpend, leading_stays hw, behind_stays hw, segmentsLeft_cons] at hold
    rw [IbvQp.postSend, List.length_append, List.length_singleton, Nat.cast_add, Nat.cast_one]
    rw [hque, advanced_plain hextra] at hbehind hleft ⊢
    by_cases hone : w.remainingMsgCnt - 1 = 0
    · rw [if_pos hone] at hbehind hleft ⊢
      have hne := hold hbehind fun x hx => by
        rcases List.mem_cons.mp hx with rfl | hx
        · omega
        · exact hleft x hx
      omega
    · rw [if_neg hone] at hbehind hleft ⊢
      have hw' : ∀ o r, Spread { w with offset := o, remainingMsgCnt := r } = false := fun _ _ => hw
      rw [behind_stays (hw' _ _)] at hbehind
      rw [leading_stays (hw' _ _)] at hleft ⊢
      rw [segmentsLeft_cons]
      have hfirst := hleft _ List.mem_cons_self
      have hne := hold hbehind fun x hx => by
        rcases List.mem_cons.mp hx with rfl | hx
        · simp only at hfirst
          omega
        · exact hleft x (List.mem_cons_of_mem _ hx)
      simp only
      omega
  · rw [if_neg (fun h => hzero h.symm)] at hp
    exact ⟨fun _ => (hslot i hi p hp).1 hzero, fun h => absurd h hzero⟩

theorem SendBounded.round (hc : c < 2 ^ 64) (hb : SendBounded c v) (hslot : Slot c v k)
    {k' : Option ℕ} (h : mapPendingSendRound (v, k) = .ok (b, v', k')) :
    SendBounded c v' ∧ SameRecv v v' ∧ Slot c v' k' := by
  cases hpend : v.pendingSendVirtualWrQue_ with
  | nil =>
    simp only [mapPendingSendRound, hpend] at h
    cases h
    exact ⟨hb, SameRecv.refl v, hslot⟩
  | cons w rest =>
    have hlimit := hb.limit
    have hmax : v.maxMsgCntPerQp_ ≠ -1 := by omega
    rw [mapPendingSendRound_cons hpend] at h
    cases hselect : v.selectSendQp k w with
    | error e =>
      rw [hselect] at h
      cases h
    | ok r =>
      rcases r with ⟨o, u, l⟩
      simp only [hselect, bind, Except.bind] at h
      cases hw : Spread w with
      | true =>
        rcases selectSendQp_spread hw hmax hselect with ⟨⟨n, rfl⟩, rfl, hroom⟩
        have hb' : SendBounded c { v with nextSendPhysicalQpIdx_ := n } :=
          hb.of_same ⟨rfl, rfl, rfl⟩
        cases o with
        | none =>
          cases h
          exact ⟨hb', ⟨rfl, rfl, rfl, rfl⟩, slot_none c _⟩
        | some i =>
          cases hpost : postSegment { v with nextSendPhysicalQpIdx_ := n } i w rest with
          | error e =>
            simp only [hpost] at h
            cases h
          | ok t =>
            simp only [hpost] at h
            cases h
            rcases postSegment_of_ok hpost with ⟨q, _, _, _, _, hq, _⟩
            have hlt : q.physicalSendWrStatus_.length < c := by
              rcases hroom i rfl with rfl | ⟨p, hp, hlen⟩
              · rcases Nat.eq_zero_or_pos i with rfl | hpos
                · have hne := (hslot 0 rfl q hq).2 rfl
                  rw [hpend, leading_spread hw, behind_spread hw] at hne
                  have hle := hb.send q (List.mem_of_getElem? hq)
                  have hfill := hne (List.cons_ne_nil _ _) (by simp)
                  simp only [segmentsLeft, List.map_nil, List.sum_nil] at hfill
                  omega
                · exact (hslot i rfl q hq).1 (by omega)
              · rw [show p = q from Option.some.inj (hp.symm.trans hq)] at hlen
                exact (hasRoom_iff hc hb.limit).mp hlen
            have hnext : SameRecv v { v with nextSendPhysicalQpIdx_ := n } := ⟨rfl, rfl, rfl, rfl⟩
            rcases hb'.segment hpend hq hlt hpost with ⟨hb'', hsame, _, _⟩
            exact ⟨hb'', hnext.trans hsame, slot_none c _⟩
      | false =>
        rcases selectSendQp_stays hw hselect with ⟨rfl, rfl, hroom⟩
        cases o with
        | none =>
          cases h
          exact ⟨hb, SameRecv.refl _, hslot⟩
        | some i =>
          rcases hroom i rfl with ⟨rfl, q, hq, hlen⟩
          cases hpost : u.postSegment 0 w rest with
          | error e =>
            simp only [hpost] at h
            cases h
          | ok t =>
            simp only [hpost] at h
            cases h
            have hextra : w.sendExtraNotifyImm = false := by
              by_contra hne
              have hspread := hb.extra w (by simp [hpend]) (by simpa using hne)
              rw [hw] at hspread
              cases hspread
            rcases hb.segment hpend hq ((hasRoom_iff hc hb.limit).mp hlen) hpost with
              ⟨hb', hsame, ⟨wr, hqps⟩, ⟨length, hque⟩⟩
            exact ⟨hb', hsame, hslot.stays hpend hw hextra hq hqps hque⟩

theorem SendBounded.map (hc : c < 2 ^ 64) (hb : SendBounded c v) (hslot : Slot c v k)
    (h : v.mapPendingSendQueToPhysicalQp k = .ok v') : SendBounded c v' ∧ SameRecv v v' := by
  rw [mapPendingSendQueToPhysicalQp] at h
  cases hloop : loop .diverged mapPendingSendRound (sendRounds v.pendingSendVirtualWrQue_)
      (v, k) with
  | error e =>
    rw [hloop] at h
    cases h
  | ok s =>
    rw [hloop] at h
    cases h
    have hinv : SendBounded c s.1 ∧ SameRecv v s.1 ∧ Slot c s.1 s.2 := by
      apply loop_of_ok (fun s => SendBounded c s.1 ∧ SameRecv v s.1 ∧ Slot c s.1 s.2) ?_
        ⟨hb, SameRecv.refl v, hslot⟩ hloop
      rintro ⟨u, l⟩ b ⟨u', l'⟩ hround ⟨hu, hsame, hl⟩
      rcases hu.round hc hl hround with ⟨hu', hsame', hl'⟩
      exact ⟨hu', hsame.trans hsame', hl'⟩
    exact ⟨hinv.1, hinv.2.1⟩

/-! ### Receives -/

/-- The index handed in stands for a free slot of QP 0. -/
def RecvSlot (c : ℕ) (v : IbvVirtualQp) (k : Option ℕ) : Prop :=
  k = some 0 → ∀ q ∈ v.physicalQps_[0]?, q.physicalRecvWrStatus_.length < c

theorem recvSlot_none (c : ℕ) (v : IbvVirtualQp) : RecvSlot c v none := by
  intro hk
  cases hk

/-- A QP with room and what a receive on it leaves as it is. -/
theorem RecvBounded.post (hb : RecvBounded c v) (hq : v.physicalQps_[i]? = some q)
    (hlt : q.physicalRecvWrStatus_.length < c) (hspray : v.loadBalancingScheme_ = .SPRAY)
    (hqps : ∃ wr id, v'.physicalQps_ = v.physicalQps_.set i (q.postRecv wr id))
    (hlimit : v'.maxMsgCntPerQp_ = v.maxMsgCntPerQp_)
    (hscheme : v'.loadBalancingScheme_ = v.loadBalancingScheme_)
    (hpend : v'.pendingSendVirtualWrQue_ = v.pendingSendVirtualWrQue_) :
    RecvBounded c v' ∧ SameSend v v' := by
  rcases hqps with ⟨wr, id, hqps⟩
  refine ⟨⟨hlimit.trans hb.limit, ?_, ?_⟩, hlimit, hpend, ?_⟩
  · intro p hp
    rcases List.mem_or_eq_of_mem_set (hqps ▸ hp) with hp | rfl
    · exact hb.recv p hp
    · rw [IbvQp.postRecv, List.length_append]
      exact hlt
  · intro h
    rw [hscheme, hspray] at h
    cases h
  · rw [hqps]
    exact map_set_same hq rfl

theorem postRecvNotifyImm_none (h : v.postRecvNotifyImm none = .ok v') :
    SameSend v v' ∧ SameRecv v v' := by
  simp only [postRecvNotifyImm, qp?] at h
  split at h
  · split at h
    · cases h
    · cases h
      exact ⟨⟨rfl, rfl, rfl⟩, rfl, rfl, rfl, rfl⟩
  · cases h
    exact ⟨⟨rfl, rfl, rfl⟩, rfl, rfl, rfl, rfl⟩

theorem RecvBounded.segment (hb : RecvBounded c v) (hspray : v.loadBalancingScheme_ = .SPRAY)
    (hlt : ∀ q ∈ v.physicalQps_[i]?, q.physicalRecvWrStatus_.length < c) {w : VirtualRecvWr}
    {rest : List VirtualRecvWr} (h : v.postRecvSegment i w rest = .ok v') :
    RecvBounded c v' ∧ SameSend v v' ∧ v'.loadBalancingScheme_ = v.loadBalancingScheme_ := by
  rw [postRecvSegment] at h
  split at h
  · rename_i q sg hq _
    dsimp only at h
    split at h
    · cases h
    · cases h
      exact and_assoc.mp ⟨hb.post hq (hlt q hq) hspray ⟨_, _, rfl⟩ rfl rfl rfl, rfl⟩
  · cases h
  · cases h

theorem selectRecvQp_of_ok {o : Option ℕ} (hmax : v.maxMsgCntPerQp_ ≠ -1)
    (h : v.selectRecvQp k = .ok o) : ∀ i ∈ o, i = 0 ∧
      (k = some 0 ∨ ∀ q ∈ v.physicalQps_[0]?, v.hasRoom q.physicalRecvWrStatus_.length) := by
  rw [selectRecvQp] at h
  split at h
  · rename_i hk
    cases h
    intro i hi
    cases hi
    exact ⟨rfl, Or.inl hk⟩
  · rw [findAvailableRecvQp, if_neg hmax] at h
    split at h
    · cases h
    · rename_i q hq
      cases h
      intro i hi
      split at hi
      · rename_i hroom
        cases hi
        refine ⟨rfl, Or.inr ?_⟩
        rw [hq]
        intro p hp
        cases hp
        exact hroom
      · cases hi

theorem RecvBounded.round (hc : c < 2 ^ 64) (hb : RecvBounded c v)
    (hspray : v.loadBalancingScheme_ = .SPRAY) (hslot : RecvSlot c v k) {k' : Option ℕ}
    (h : mapPendingRecvRound (v, k) = .ok (b, v', k')) :
    RecvBounded c v' ∧ SameSend v v' ∧ v'.loadBalancingScheme_ = .SPRAY ∧ RecvSlot c v' k' := by
  rw [mapPendingRecvRound] at h
  split at h
  · cases h
    exact ⟨hb, SameSend.refl v, hspray, hslot⟩
  · rename_i w rest _
    split at h
    · cases hpost : v.postRecvNotifyImm none with
      | error e =>
        simp only [hpost, bind, Except.bind] at h
        cases h
      | ok u =>
        simp only [hpost, bind, Except.bind] at h
        cases h
        rcases postRecvNotifyImm_none hpost with ⟨hsend, hrecv⟩
        refine ⟨hb.of_same hrecv, hsend, hrecv.scheme.trans hspray, ?_⟩
        intro hk q hq
        rcases getElem?_of_map_eq hrecv.status hq with ⟨p, hp, heq⟩
        rw [← heq]
        exact hslot hk p hp
    · have hlimit := hb.limit
      cases hselect : v.selectRecvQp k with
      | error e =>
        simp only [hselect, bind, Except.bind] at h
        cases h
      | ok o =>
        simp only [hselect, bind, Except.bind] at h
        cases o with
        | none =>
          cases h
          exact ⟨hb, SameSend.refl v, hspray, recvSlot_none c v⟩
        | some i =>
          rcases selectRecvQp_of_ok (by omega) hselect i rfl with ⟨rfl, hroom⟩
          have hlt : ∀ q ∈ v.physicalQps_[0]?, q.physicalRecvWrStatus_.length < c := by
            rcases hroom with hk | hroom
            · exact hslot hk
            · exact fun q hq => (hasRoom_iff hc hb.limit).mp (hroom q hq)
          cases hpost : v.postRecvSegment 0 w rest with
          | error e =>
            simp only [hpost] at h
            cases h
          | ok u =>
            simp only [hpost] at h
            cases h
            rcases hb.segment hspray hlt hpost with ⟨hb', hsame, hscheme⟩
            exact ⟨hb', hsame, hscheme.trans hspray, recvSlot_none c _⟩

theorem RecvBounded.map (hc : c < 2 ^ 64) (hb : RecvBounded c v)
    (hspray : v.loadBalancingScheme_ = .SPRAY) (hslot : RecvSlot c v k)
    (h : v.mapPendingRecvQueToPhysicalQp k = .ok v') : RecvBounded c v' ∧ SameSend v v' := by
  rw [mapPendingRecvQueToPhysicalQp] at h
  cases hloop : loop .diverged mapPendingRecvRound (recvRounds v.pendingRecvVirtualWrQue_)
      (v, k) with
  | error e =>
    rw [hloop] at h
    cases h
  | ok s =>
    rw [hloop] at h
    cases h
    have hinv : RecvBounded c s.1 ∧ SameSend v s.1 ∧ s.1.loadBalancingScheme_ = .SPRAY ∧
        RecvSlot c s.1 s.2 := by
      apply loop_of_ok (fun s => RecvBounded c s.1 ∧ SameSend v s.1 ∧
        s.1.loadBalancingScheme_ = .SPRAY ∧ RecvSlot c s.1 s.2) ?_
        ⟨hb, SameSend.refl v, hspray, hslot⟩ hloop
      rintro ⟨u, l⟩ b ⟨u', l'⟩ hround ⟨hu, hsame, hscheme, hl⟩
      rcases hu.round hc hscheme hl hround with ⟨hu', hsame', hscheme', hl'⟩
      exact ⟨hu', hsame.trans hsame', hscheme', hl'⟩
    exact ⟨hinv.1, hinv.2.1⟩

/-! ### The receives posted in advance -/

/-- Receives were posted on the data QPs, `f i` of them on the QP `i`. -/
structure Grown (f : ℕ → ℕ) (v v' : IbvVirtualQp) : Prop where
  send : SameSend v v'
  scheme : v'.loadBalancingScheme_ = v.loadBalancingScheme_
  recv : ∀ i, v'.physicalQps_[i]?.map (fun q => q.physicalRecvWrStatus_.length) =
    v.physicalQps_[i]?.map fun q => q.physicalRecvWrStatus_.length + f i

theorem Grown.trans {f g : ℕ → ℕ} (h : Grown f v v') (h' : Grown g v' v'') :
    Grown (fun i => f i + g i) v v'' where
  send := h.send.trans h'.send
  scheme := h'.scheme.trans h.scheme
  recv i := by
    have hfirst := h.recv i
    rw [h'.recv i]
    cases hq : v.physicalQps_[i]? with
    | none =>
      rw [hq, Option.map_none, Option.map_eq_none_iff] at hfirst
      rw [hfirst]
      rfl
    | some q =>
      rw [hq, Option.map_some] at hfirst
      rcases Option.map_eq_some_iff.mp hfirst with ⟨p, hp, hlen⟩
      rw [hp, Option.map_some, Option.map_some, hlen, Nat.add_assoc]

theorem grown_prepostRecv (v : IbvVirtualQp) (j : ℕ) :
    Grown (fun i => if j = i then 1 else 0) v (v.prepostRecv j) where
  send := by
    refine ⟨rfl, rfl, ?_⟩
    apply List.ext_getElem?
    intro n
    simp only [prepostRecv, List.getElem?_map, List.getElem?_modify]
    cases v.physicalQps_[n]? with
    | none => rfl
    | some q =>
      simp only [Option.map_some]
      split <;> rfl
  scheme := rfl
  recv i := by
    simp only [prepostRecv, List.getElem?_modify]
    cases v.physicalQps_[i]? with
    | none => rfl
    | some q =>
      simp only [Option.map_some]
      split
      · simp only [Option.map_eq_map, Option.map_some, IbvQp.postRecv, List.length_append,
          List.length_singleton]
      · rfl

theorem grown_prepostRecvs (v : IbvVirtualQp) (js : List ℕ) :
    Grown (fun i => js.count i) v (js.foldl prepostRecv v) := by
  induction js generalizing v with
  | nil => exact ⟨SameSend.refl v, rfl, fun _ => rfl⟩
  | cons j js ih =>
    have hboth := (grown_prepostRecv v j).trans (ih (v.prepostRecv j))
    refine ⟨hboth.send, hboth.scheme, ?_⟩
    intro i
    rw [List.foldl_cons, hboth.recv i, List.count_cons]
    simp only [beq_iff_eq, Nat.add_comm]

theorem grown_round (v : IbvVirtualQp) :
    Grown (fun _ => 1) v ((List.range v.physicalQps_.length).foldl prepostRecv v) := by
  have hall := grown_prepostRecvs v (List.range v.physicalQps_.length)
  refine ⟨hall.send, hall.scheme, ?_⟩
  intro i
  rw [hall.recv i]
  cases hq : v.physicalQps_[i]? with
  | none => rfl
  | some q =>
    have hone : (List.range v.physicalQps_.length).count i = 1 :=
      List.count_eq_one_of_mem List.nodup_range
        (List.mem_range.mpr (List.getElem?_eq_some_iff.mp hq).1)
    rw [Option.map_some, Option.map_some, hone]

theorem grown_rounds (v : IbvVirtualQp) (rounds : List ℕ) :
    Grown (fun _ => rounds.length) v (rounds.foldl (fun v _ =>
      (List.range v.physicalQps_.length).foldl prepostRecv v) v) := by
  induction rounds generalizing v with
  | nil => exact ⟨SameSend.refl v, rfl, fun _ => rfl⟩
  | cons n rounds ih =>
    have hboth := (grown_round v).trans (ih _)
    refine ⟨hboth.send, hboth.scheme, ?_⟩
    intro i
    rw [List.foldl_cons, hboth.recv i, List.length_cons, Nat.add_comm 1]

theorem RecvBounded.initialize (hb : RecvBounded c v) (hscheme : v.loadBalancingScheme_ = .DQPLB)
    (hinit : v.dqplbReceiverInitialized_ = false) :
    RecvBounded c v.initializeDqplbReceiver ∧ SameSend v v.initializeDqplbReceiver := by
  have hall := grown_rounds v (List.range v.maxMsgCntPerQp_.toNat)
  refine ⟨⟨hall.send.limit.trans hb.limit, ?_, fun _ h => nomatch h⟩, hall.send.limit,
    hall.send.pending, hall.send.status⟩
  intro p hp
  rcases List.mem_iff_getElem?.mp hp with ⟨i, hi⟩
  have hlen := hall.recv i
  rw [show ((List.range v.maxMsgCntPerQp_.toNat).foldl (fun v _ =>
    (List.range v.physicalQps_.length).foldl prepostRecv v) v).physicalQps_[i]? = some p from hi,
    Option.map_some] at hlen
  rcases Option.map_eq_some_iff.mp hlen.symm with ⟨q, hq, heq⟩
  rw [hb.fresh hscheme hinit q (List.mem_of_getElem? hq), hb.limit, List.length_range] at heq
  rw [← heq]
  simp

/-! ### Steps -/

structure Bounded (c : ℕ) (v : IbvVirtualQp) : Prop where
  sends : SendBounded c v
  recvs : RecvBounded c v

theorem Bounded.postSend (hc : c < 2 ^ 64) (hb : Bounded c v)
    {request : VirtualCqRequest} (h : v.postSend wr = .ok (request, v')) : Bounded c v' := by
  rcases postSend_of_ok h with ⟨g, segments, n, extra, _, _, hextra, _, _, hmap⟩
  have hpush : (VirtualSendWr.ofWr wr n extra).sendExtraNotifyImm →
      Spread (VirtualSendWr.ofWr wr n extra) := by
    intro hx
    have hop : wr.opcode = .IBV_WR_RDMA_WRITE_WITH_IMM := by
      rw [show (VirtualSendWr.ofWr wr n extra).sendExtraNotifyImm = extra from rfl, hextra,
        decide_eq_true_iff] at hx
      exact hx.1
    have hcopy : (VirtualSendWr.ofWr wr n extra).wr.opcode = wr.opcode := by
      rw [VirtualSendWr.ofWr]
      split <;> rfl
    rw [Spread, hcopy, hop]
  rcases (hb.sends.push hpush).map hc (slot_none c _) hmap with ⟨hsend, hsame⟩
  have hadd : SameRecv v { v with pendingSendVirtualWrQue_ := v.pendingSendVirtualWrQue_ ++
      [VirtualSendWr.ofWr wr n extra] } := ⟨rfl, rfl, rfl, rfl⟩
  exact ⟨hsend, hb.recvs.of_same (hadd.trans hsame)⟩

theorem Bounded.postRecv (hc : c < 2 ^ 64) (hb : Bounded c v) {wr : IbvRecvWr}
    {request : VirtualCqRequest} (h : v.postRecv wr = .ok (request, v')) : Bounded c v' := by
  rcases postRecv_of_ok h with ⟨x, hcase⟩
  have hsend : SameSend v { v with
      pendingRecvVirtualWrQue_ := v.pendingRecvVirtualWrQue_ ++ [x] } := ⟨rfl, rfl, rfl⟩
  have hrecv : RecvBounded c { v with
      pendingRecvVirtualWrQue_ := v.pendingRecvVirtualWrQue_ ++ [x] } :=
    hb.recvs.of_same ⟨rfl, rfl, rfl, rfl⟩
  rcases hcase with ⟨hscheme, hmap⟩ | ⟨hscheme, rfl⟩
  · rcases hrecv.map hc hscheme (recvSlot_none c _) hmap with ⟨hrecv', hsame⟩
    exact ⟨hb.sends.of_same (hsend.trans hsame), hrecv'⟩
  · by_cases hinit : v.dqplbReceiverInitialized_
    · rw [if_pos hinit]
      exact ⟨hb.sends.of_same hsend, hrecv⟩
    · rw [if_neg hinit]
      rcases hrecv.initialize hscheme (by simpa using hinit) with ⟨hrecv', hsame⟩
      exact ⟨hb.sends.of_same (hsend.trans hsame), hrecv'⟩

variable {request : VirtualQpRequest}

/-- After the completion of a message the slot it frees can be used, unless QP 0 is overfilled. -/
theorem SendBounded.retire (hb : SendBounded c v)
        (hmatch : Matches v request IbvQp.physicalSendWrStatus_ (some i) q st sts)
    (hover : ¬ v.Overfills request) :
    SendBounded c (v.setQp (some i) { q with physicalSendWrStatus_ := sts }) ∧
      Slot c (v.setQp (some i) { q with physicalSendWrStatus_ := sts }) (some i) := by
  have hq : v.physicalQps_[i]? = some q := hmatch.qp
  have hlen : sts.length < c := by
    have hle := hb.send q (List.mem_of_getElem? hq)
    rw [hmatch.front, List.length_cons] at hle
    omega
  constructor
  · refine ⟨hb.limit, ?_, hb.extra⟩
    intro p hp
    rcases List.mem_or_eq_of_mem_set hp with hp | rfl
    · exact hb.send p hp
    · exact Nat.le_of_lt hlen
  · intro j hj p hp
    cases hj
    rw [setQp, List.getElem?_set, if_pos rfl, if_pos (List.getElem?_eq_some_iff.mp hq).1,
      Option.some.injEq] at hp
    subst hp
    refine ⟨fun _ => hlen, ?_⟩
    rintro rfl hbehind hleft hfill
    by_cases hlead : leading v.pendingSendVirtualWrQue_ = []
    · change (sts.length : ℤ) + segmentsLeft (leading v.pendingSendVirtualWrQue_) = c at hfill
      rw [hlead] at hfill
      simp only [segmentsLeft, List.map_nil, List.sum_nil] at hfill
      omega
    · apply hover
      refine ⟨hmatch.index, q, hq, ⟨st, ?_, hmatch.wrId⟩, hlead, hbehind, hleft, ?_⟩
      · rw [hmatch.front]
        rfl
      · rw [hmatch.front, hb.limit]
        exact hfill

theorem Bounded.processSend (hc : c < 2 ^ 64) (hb : Bounded c v)
    (htype : request.type = .SEND) (hover : ¬ v.Overfills request)
    (h : v.processRequest request = .ok (response, v')) : Bounded c v' := by
  rcases processSend_of_ok htype h with ⟨k, q, st, sts, hmatch, ⟨rfl, rfl⟩ | ⟨i, rfl, hmap⟩⟩
  · exact ⟨hb.sends.of_same ⟨rfl, rfl, rfl⟩, hb.recvs.of_same ⟨rfl, rfl, rfl, rfl⟩⟩
  · have hq : v.physicalQps_[i]? = some q := hmatch.qp
    have hretire : SameRecv v (v.setQp (some i) { q with physicalSendWrStatus_ := sts }) :=
      ⟨rfl, rfl, rfl, map_set_same hq rfl⟩
    rcases hb.sends.retire hmatch hover with ⟨hsend, hslot⟩
    rcases hsend.map hc hslot hmap with ⟨hsend', hsame⟩
    exact ⟨hsend', hb.recvs.of_same (hretire.trans hsame)⟩

theorem RecvBounded.retire (hb : RecvBounded c v) (hq : v.physicalQps_[i]? = some q)
        (hst : q.physicalRecvWrStatus_ = st :: sts) :
    RecvBounded c (v.setQp (some i) { q with physicalRecvWrStatus_ := sts }) ∧ sts.length < c ∧
      (v.loadBalancingScheme_ = .DQPLB → v.dqplbReceiverInitialized_ = true) := by
  have hmem := List.mem_of_getElem? hq
  have hlen : sts.length < c := by
    have hle := hb.recv q hmem
    rw [hst, List.length_cons] at hle
    omega
  have hready : v.loadBalancingScheme_ = .DQPLB → v.dqplbReceiverInitialized_ = true := by
    intro hscheme
    by_contra hne
    have hnil := hb.fresh hscheme (by simpa using hne) q hmem
    rw [hst] at hnil
    cases hnil
  refine ⟨⟨hb.limit, ?_, ?_⟩, hlen, hready⟩
  · intro p hp
    rcases List.mem_or_eq_of_mem_set hp with hp | rfl
    · exact hb.recv p hp
    · exact Nat.le_of_lt hlen
  · intro hscheme hinit
    exact absurd ((hready hscheme).symm.trans hinit) (by decide)

theorem Bounded.processRecv (hc : c < 2 ^ 64) (hb : Bounded c v) (htype : request.type = .RECV)
    (h : v.processRequest request = .ok (response, v')) : Bounded c v' := by
  rcases processRecv_of_ok htype h with
    ⟨k, q, st, sts, hmatch, ⟨hscheme, ⟨rfl, rfl⟩ | ⟨i, rfl, hmap⟩⟩ | ⟨hscheme, u, tracker, hpost, rfl⟩⟩
  · exact ⟨hb.sends.of_same ⟨rfl, rfl, rfl⟩, hb.recvs.of_same ⟨rfl, rfl, rfl, rfl⟩⟩
  · have hq : v.physicalQps_[i]? = some q := hmatch.qp
    have hretire : SameSend v (v.setQp (some i) { q with physicalRecvWrStatus_ := sts }) :=
      ⟨rfl, rfl, map_set_same hq rfl⟩
    rcases hb.recvs.retire hq hmatch.front with ⟨hrecv, hlen, _⟩
    have hslot : RecvSlot c (v.setQp (some i) { q with physicalRecvWrStatus_ := sts }) (some i) := by
      intro hi p hp
      cases hi
      rw [setQp, List.getElem?_set, if_pos rfl, if_pos (List.getElem?_eq_some_iff.mp hq).1,
        Option.mem_some] at hp
      rw [← hp]
      exact hlen
    rcases hrecv.map hc hscheme hslot hmap with ⟨hrecv', hsame⟩
    exact ⟨hb.sends.of_same (hretire.trans hsame), hrecv'⟩
  · cases k with
    | none =>
      rcases postRecvNotifyImm_none hpost with ⟨hsend, hrecv⟩
      exact ⟨hb.sends.of_same ⟨hsend.limit, hsend.pending, hsend.status⟩,
        hb.recvs.of_same ⟨hrecv.limit, hrecv.scheme, hrecv.initialized, hrecv.status⟩⟩
    | some i =>
      have hq : v.physicalQps_[i]? = some q := hmatch.qp
      have hlt := (List.getElem?_eq_some_iff.mp hq).1
      rcases hb.recvs.retire hq hmatch.front with ⟨hrecv, hlen, hready⟩
      have hget : (v.setQp (some i) { q with physicalRecvWrStatus_ := sts }).qp? (some i) =
          some { q with physicalRecvWrStatus_ := sts } := by
        simp only [qp?, setQp, List.getElem?_set, if_pos hlt, if_true]
      have hmode : (v.setQp (some i) { q with
          physicalRecvWrStatus_ := sts }).loadBalancingScheme_ = .DQPLB := hscheme
      simp only [postRecvNotifyImm, hget, hmode] at hpost
      cases hpost
      rw [setQp_setQp]
      refine ⟨hb.sends.of_same ⟨rfl, rfl, map_set_same hq rfl⟩, hb.recvs.limit, ?_, ?_⟩
      · intro p hp
        rcases List.mem_or_eq_of_mem_set hp with hp | rfl
        · exact hb.recvs.recv p hp
        · rw [IbvQp.postRecv, List.length_append]
          exact hlen
      · intro _ hinit
        exact absurd ((hready hscheme).symm.trans hinit) (by decide)

theorem Bounded.processSendNotify (hb : Bounded c v) (htype : request.type = .SEND_NOTIFY)
    (h : v.processRequest request = .ok (response, v')) : Bounded c v' := by
  rcases processSendNotify_of_ok htype h with rfl | hpost
  · exact hb
  · rw [postSendNotifyImm] at hpost
    split at hpost
    · cases hpost
    · cases hpost
      exact ⟨hb.sends.of_same ⟨rfl, rfl, rfl⟩, hb.recvs.of_same ⟨rfl, rfl, rfl, rfl⟩⟩

theorem nextSend_some (h : v.nextSend k = some (request, v')) :
    request.type = .SEND ∧ SameSend v v' ∧ SameRecv v v' := by
  simp only [nextSend, Option.bind_eq_bind, Option.bind_eq_some_iff] at h
  rcases h with ⟨q, hq, r, hr, heq⟩
  cases heq
  rw [IbvQp.completeSend, Option.map_eq_some_iff] at hr
  rcases hr with ⟨x, _, rfl⟩
  cases k with
  | none => exact ⟨rfl, ⟨rfl, rfl, rfl⟩, rfl, rfl, rfl, rfl⟩
  | some i => exact ⟨rfl, ⟨rfl, rfl, map_set_same hq rfl⟩, rfl, rfl, rfl, map_set_same hq rfl⟩

theorem nextRecv_some {immData : ℕ} (h : v.nextRecv k immData = some (request, v')) :
    request.type = .RECV ∧ SameSend v v' ∧ SameRecv v v' := by
  simp only [nextRecv, Option.bind_eq_bind, Option.bind_eq_some_iff] at h
  rcases h with ⟨q, hq, r, hr, heq⟩
  cases heq
  rw [IbvQp.completeRecv, Option.map_eq_some_iff] at hr
  rcases hr with ⟨x, _, rfl⟩
  cases k with
  | none => exact ⟨rfl, ⟨rfl, rfl, rfl⟩, rfl, rfl, rfl, rfl⟩
  | some i => exact ⟨rfl, ⟨rfl, rfl, map_set_same hq rfl⟩, rfl, rfl, rfl, map_set_same hq rfl⟩

theorem Bounded.after (hb : Bounded c v) {α : Type} {r : Except Fault (α × IbvVirtualQp)}
    (hok : ∀ a u, r = .ok (a, u) → Bounded c u) (h : v.after r = .ok v') : Bounded c v' := by
  rcases after_of_ok h with rfl | ⟨a, ha⟩
  · exact hb
  · exact hok a v' ha

theorem Bounded.step (hc : c < 2 ^ 64) (hb : Bounded c v) {past : List Op} {op : Op}
    (hop : Careful past v op) (h : v.step op = .ok v') : Bounded c v' := by
  cases op with
  | postSend sendWr => exact hb.after (fun a u hu => hb.postSend hc hu) h
  | postRecv recvWr => exact hb.after (fun a u hu => hb.postRecv hc hu) h
  | sendCompletion qpIdx =>
    simp only [IbvVirtualQp.step] at h
    cases hnext : v.nextSend qpIdx with
    | none =>
      rw [hnext] at h
      cases h
      exact hb
    | some r =>
      rw [hnext] at h
      rcases nextSend_some hnext with ⟨htype, hsend, hrecv⟩
      have hb' : Bounded c r.2 := ⟨hb.sends.of_same hsend, hb.recvs.of_same hrecv⟩
      exact hb'.after (fun a u hu => hb'.processSend hc htype (hop r hnext) hu) h
  | recvCompletion qpIdx immData =>
    simp only [IbvVirtualQp.step] at h
    cases hnext : v.nextRecv qpIdx immData with
    | none =>
      rw [hnext] at h
      cases h
      exact hb
    | some r =>
      rw [hnext] at h
      rcases nextRecv_some hnext with ⟨htype, hsend, hrecv⟩
      have hb' : Bounded c r.2 := ⟨hb.sends.of_same hsend, hb.recvs.of_same hrecv⟩
      exact hb'.after (fun a u hu => hb'.processRecv hc htype hu) h
  | sendNotify wrId physicalQpNum => exact hb.after (fun a u hu => hb.processSendNotify rfl hu) h

theorem bounded_create (qpNums : List ℕ) (notifyQpNum c : ℕ) (maxMsgSize : ℤ)
    (scheme : LoadBalancingScheme) : Bounded c (create qpNums notifyQpNum c maxMsgSize scheme) := by
  have hfresh : ∀ q ∈ (create qpNums notifyQpNum c maxMsgSize scheme).physicalQps_,
      q.physicalSendWrStatus_ = [] ∧ q.physicalRecvWrStatus_ = [] := by
    intro q hq
    rcases List.mem_map.mp hq with ⟨n, _, rfl⟩
    exact ⟨rfl, rfl⟩
  refine ⟨⟨rfl, ?_, fun w hw => nomatch hw⟩, rfl, ?_, fun _ _ q hq => (hfresh q hq).2⟩
  · intro q hq
    rw [(hfresh q hq).1]
    exact Nat.zero_le c
  · intro q hq
    rw [(hfresh q hq).2]
    exact Nat.zero_le c

/-- Every data QP holds at most as many sends and receives as its cap allows. -/
def Capped (maxMsgCntPerQp : ℤ) (v : IbvVirtualQp) : Prop :=
  ∀ q ∈ v.physicalQps_, (q.physicalSendWrStatus_.length : ℤ) ≤ maxMsgCntPerQp ∧
    (q.physicalRecvWrStatus_.length : ℤ) ≤ maxMsgCntPerQp

theorem capped_of_careful {qpNums : List ℕ} {notifyQpNum : ℕ} {maxMsgCntPerQp maxMsgSize : ℤ}
    {scheme : LoadBalancingScheme} {ops : List Op} {v : IbvVirtualQp} (hcap : 1 ≤ maxMsgCntPerQp)
    (hint : maxMsgCntPerQp ≤ INT_MAX)
    (hops : Admissible step Careful [] (create qpNums notifyQpNum maxMsgCntPerQp maxMsgSize scheme)
      ops)
    (hrun : run step (create qpNums notifyQpNum maxMsgCntPerQp maxMsgSize scheme) ops = .ok v) :
    v.Capped maxMsgCntPerQp := by
  rcases Int.eq_ofNat_of_zero_le (by omega : 0 ≤ maxMsgCntPerQp) with ⟨c, rfl⟩
  have hc : c < 2 ^ 64 := by
    simp only [INT_MAX] at hint
    omega
  rcases run_invariant_or_stops (fun _ u => Bounded c u) (fun _ => True) (fun past u op hu hop => by
      cases hstep : u.step op with
      | error e => exact Or.inr ⟨e, rfl, trivial⟩
      | ok u' => exact Or.inl ⟨u', rfl, hu.step hc hop hstep⟩)
    ops (bounded_create qpNums notifyQpNum c maxMsgSize scheme) hops with ⟨u, hu, hb⟩ | ⟨e, he, _⟩
  · rw [hrun] at hu
    cases hu
    intro q hq
    exact ⟨Int.ofNat_le.mpr (hb.sends.send q hq), Int.ofNat_le.mpr (hb.recvs.recv q hq)⟩
  · rw [hrun] at he
    cases he

theorem capped_of_careful_one : ∃ v, run step (create [10] 11 1 100 .SPRAY)
    [.postSend ⟨1, some ⟨0, 10, 0⟩, 1, .IBV_WR_SEND, IBV_SEND_SIGNALED, 0, 0, 0⟩,
      .postSend ⟨2, some ⟨0, 250, 0⟩, 1, .IBV_WR_RDMA_WRITE, IBV_SEND_SIGNALED, 0, 0, 0⟩,
      .sendCompletion (some 0)] = .ok v ∧ v.Capped 1 := by
  have hrun : ∃ v, run step (create [10] 11 1 100 .SPRAY)
      [.postSend ⟨1, some ⟨0, 10, 0⟩, 1, .IBV_WR_SEND, IBV_SEND_SIGNALED, 0, 0, 0⟩,
        .postSend ⟨2, some ⟨0, 250, 0⟩, 1, .IBV_WR_RDMA_WRITE, IBV_SEND_SIGNALED, 0, 0, 0⟩,
        .sendCompletion (some 0)] = .ok v := ⟨_, rfl⟩
  rcases hrun with ⟨v, hv⟩
  exact ⟨v, hv, capped_of_careful (by decide) (by decide) (by decide) hv⟩

/-- Two SENDs and a write on one QP that takes one message at a time: the completion of the first
SEND posts both that wait. -/
theorem not_capped_overfilled :
    ¬ ∀ (qpNums : List ℕ) (notifyQpNum : ℕ) (maxMsgCntPerQp maxMsgSize : ℤ)
      (scheme : LoadBalancingScheme) (ops : List Op) (v : IbvVirtualQp), 1 ≤ maxMsgCntPerQp →
      run step (create qpNums notifyQpNum maxMsgCntPerQp maxMsgSize scheme) ops = .ok v →
      v.Capped maxMsgCntPerQp := by
  intro h
  have hcap := h [10] 11 1 100 .SPRAY
    [.postSend ⟨1, some ⟨0, 10, 0⟩, 1, .IBV_WR_SEND, IBV_SEND_SIGNALED, 0, 0, 0⟩,
      .postSend ⟨2, some ⟨0, 10, 0⟩, 1, .IBV_WR_SEND, IBV_SEND_SIGNALED, 0, 0, 0⟩,
      .postSend ⟨3, some ⟨0, 10, 0⟩, 1, .IBV_WR_RDMA_WRITE, IBV_SEND_SIGNALED, 0, 0, 0⟩,
      .sendCompletion (some 0)] _ (by decide) rfl _ List.mem_cons_self
  exact absurd hcap.1 (by decide)

end IbvVirtualQp
end TorchComms.Ibverbx
