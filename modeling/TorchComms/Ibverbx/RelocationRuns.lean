import TorchComms.Ibverbx.Relocation

/-! # A run with moves and the run without them

Two programs are alike where what they hold is the same, wherever it lies. Calls keep them so, and a
move does where the members that it leaves out are no loss.
-/
namespace TorchComms.Ibverbx

open Foundation

/-! ### Members that a move leaves out -/

namespace IbvVirtualQp

/-- The members that are not moved agree. -/
structure LeftAlike (this other : IbvVirtualQp) : Prop where
  sends : this.pendingSendVirtualWrQue_ = other.pendingSendVirtualWrQue_
  recvs : this.pendingRecvVirtualWrQue_ = other.pendingRecvVirtualWrQue_
  notifies : this.pendingSendNotifyVirtualWrQue_ = other.pendingSendNotifyVirtualWrQue_
  virtualQpNum : this.virtualQpNum_ = other.virtualQpNum_
  nextPhysicalWrId : this.nextPhysicalWrId_ = other.nextPhysicalWrId_
  tracker : this.dqplbSeqTracker = other.dqplbSeqTracker
  receiver : this.dqplbReceiverInitialized_ = other.dqplbReceiverInitialized_

theorem LeftAlike.moveFrom {this other : IbvVirtualQp} (h : LeftAlike this other) :
    this.moveFrom other = other := by
  cases this
  cases other
  cases h
  simp_all only [IbvVirtualQp.moveFrom]

end IbvVirtualQp

namespace VcqObject

/-- The maps agree, and have no pointers. -/
def LeftAlike (this other : VcqObject) : Prop :=
  ∀ id, this.cq.virtualWrIdToVirtualWc_ id = other.cq.virtualWrIdToVirtualWc_ id ∧
    ∀ ptr, other.cq.virtualWrIdToVirtualWc_ id ≠ some (some ptr)

theorem LeftAlike.moveFrom {this other : VcqObject} (h : LeftAlike this other) :
    this.moveFrom other = other := by
  have hmap : (fun id => (this.cq.virtualWrIdToVirtualWc_ id).map fun _ => none) =
      other.cq.virtualWrIdToVirtualWc_ := by
    funext id
    rcases h id with ⟨heq, hnull⟩
    rw [heq]
    cases hentry : other.cq.virtualWrIdToVirtualWc_ id with
    | none => rfl
    | some ptr =>
      cases ptr with
      | none => rfl
      | some ptr => exact absurd hentry (hnull ptr)
  unfold VcqObject.moveFrom
  rw [hmap]

end VcqObject

namespace Process

/-- A move loses nothing. -/
def Keeps (p : Process) : Move → Prop
  | .vqp target construct => target ≠ p.vqp →
    (if construct then .blank else p.vqps target).LeftAlike (p.vqps p.vqp)
  | .sendCq target construct => target ≠ p.sendCq →
    (if construct then {} else p.vcqs target).LeftAlike (p.vcqs p.sendCq)
  | .recvCq target construct => target ≠ p.recvCq →
    (if construct then {} else p.vcqs target).LeftAlike (p.vcqs p.recvCq)

/-! ### Programs that are alike -/

/-- Entries of two maps are pointers to `a` and `b`, or are both not there. -/
def Parallel (a b : ℕ) (map map' : ℕ → Option ℕ) : Prop :=
  ∀ n, map n = some a ∧ map' n = some b ∨ map n = none ∧ map' n = none

variable {map map' : ℕ → Option ℕ}

theorem Parallel.redirect {a b : ℕ} (h : Parallel a b map map') (t : ℕ) :
    Parallel t b (redirect a t map) map' := by
  intro n
  unfold Ibverbx.redirect
  rcases h n with ⟨hn, hn'⟩ | ⟨hn, hn'⟩
  · left
    rw [if_pos hn]
    exact ⟨rfl, hn'⟩
  · right
    rw [if_neg (by simp [hn])]
    exact ⟨hn, hn'⟩

theorem Parallel.redirect_ne {a b c : ℕ} (h : Parallel a b map map')
    (hne : a ≠ c) (t : ℕ) : Parallel a b (Ibverbx.redirect c t map) map' := by
  intro n
  unfold Ibverbx.redirect
  rcases h n with ⟨hn, hn'⟩ | ⟨hn, hn'⟩
  · left
    rw [if_neg (by rw [hn]; simpa using hne)]
    exact ⟨hn, hn'⟩
  · right
    rw [if_neg (by simp [hn])]
    exact ⟨hn, hn'⟩

structure Alike (p p' : Process) : Prop where
  vqp : p.vqps p.vqp = p'.vqps p'.vqp
  sendCq : p.vcqs p.sendCq = p'.vcqs p'.sendCq
  recvCq : p.vcqs p.recvCq = p'.vcqs p'.recvCq
  shared : p.sendCq = p.recvCq ↔ p'.sendCq = p'.recvCq
  sendPhysicalCq : p.sendPhysicalCq = p'.sendPhysicalCq
  recvPhysicalCq : p.recvPhysicalCq = p'.recvPhysicalCq
  vqpMap : Parallel p.vqp p'.vqp p.coordinator.physicalQpNumToVirtualQp_
    p'.coordinator.physicalQpNumToVirtualQp_
  sendMap : Parallel p.sendCq p'.sendCq p.coordinator.virtualQpNumToVirtualSendCq_
    p'.coordinator.virtualQpNumToVirtualSendCq_
  recvMap : Parallel p.recvCq p'.recvCq p.coordinator.virtualQpNumToVirtualRecvCq_
    p'.coordinator.virtualQpNumToVirtualRecvCq_

variable {p p' : Process}

theorem Alike.setVqp (h : Alike p p') (v : IbvVirtualQp) :
    Alike (p.setVqp p.vqp v) (p'.setVqp p'.vqp v) where
  vqp := by
    change Function.update p.vqps p.vqp v p.vqp = Function.update p'.vqps p'.vqp v p'.vqp
    rw [Function.update_self, Function.update_self]
  __ := h

/-- Two addresses of CQs that the programs use in the same way. -/
def Side (p p' : Process) (a a' : ℕ) : Prop :=
  a = p.sendCq ∧ a' = p'.sendCq ∨ a = p.recvCq ∧ a' = p'.recvCq

variable {a a' : ℕ}

section

variable (h : Alike p p') (hside : Side p p' a a')
include h hside

theorem Alike.at_side : p.vcqs a = p'.vcqs a' := by
  rcases hside with ⟨rfl, rfl⟩ | ⟨rfl, rfl⟩
  · exact h.sendCq
  · exact h.recvCq

theorem Alike.eq_send : p.sendCq = a ↔ p'.sendCq = a' := by
  rcases hside with ⟨rfl, rfl⟩ | ⟨rfl, rfl⟩
  · exact iff_of_true rfl rfl
  · exact h.shared

theorem Alike.eq_recv : p.recvCq = a ↔ p'.recvCq = a' := by
  rcases hside with ⟨rfl, rfl⟩ | ⟨rfl, rfl⟩
  · rw [eq_comm, h.shared, eq_comm]
  · exact iff_of_true rfl rfl

theorem Alike.setCq (cq : IbvVirtualCq) : Alike (p.setCq a cq) (p'.setCq a' cq) where
  __ := h
  sendCq := by
    change Function.update p.vcqs a _ p.sendCq = Function.update p'.vcqs a' _ p'.sendCq
    rw [Function.update_apply, Function.update_apply, h.at_side hside, h.sendCq]
    exact if_congr (h.eq_send hside) rfl rfl
  recvCq := by
    change Function.update p.vcqs a _ p.recvCq = Function.update p'.vcqs a' _ p'.recvCq
    rw [Function.update_apply, Function.update_apply, h.at_side hside, h.recvCq]
    exact if_congr (h.eq_recv hside) rfl rfl

end

/-! ### Calls -/

/-- The same result, and programs that are alike. -/
def Agree {α : Type} (r : α × Process) (r' : α × Process) : Prop := r.1 = r'.1 ∧ Alike r.2 r'.2

theorem Alike.submitRequestToVirtualQp (h : Alike p p') (request : VirtualQpRequest) :
    Matched Agree (p.submitRequestToVirtualQp request) (p'.submitRequestToVirtualQp request) := by
  unfold Process.submitRequestToVirtualQp
  rcases h.vqpMap request.physicalQpNum with ⟨hn, hn'⟩ | ⟨hn, hn'⟩
  · rw [hn, hn']
    simp only
    rw [h.vqp]
    cases (p'.vqps p'.vqp).processRequest request with
    | ok r => exact Matched.ok ⟨rfl, h.setVqp r.2⟩
    | error f =>
      cases f with
      | error e => exact Matched.ok ⟨rfl, h⟩
      | _ => exact Matched.error _
  · rw [hn, hn']
    exact Matched.error _

theorem Alike.submitRequestToVirtualCq (h : Alike p p') (request : VirtualCqRequest) :
    Matched Alike (p.submitRequestToVirtualCq request) (p'.submitRequestToVirtualCq request) := by
  unfold Process.submitRequestToVirtualCq
  cases request with
  | SEND virtualQpNum expectedMsgCnt sendWr extra =>
    rcases h.sendMap virtualQpNum with ⟨hn, hn'⟩ | ⟨hn, hn'⟩
    · simp only [hn, hn', h.sendCq]
      exact Matched.ok (h.setCq (Or.inl ⟨rfl, rfl⟩) _)
    · simp only [hn, hn']
      exact Matched.error _
  | RECV virtualQpNum expectedMsgCnt recvWr =>
    rcases h.recvMap virtualQpNum with ⟨hn, hn'⟩ | ⟨hn, hn'⟩
    · simp only [hn, hn', h.recvCq]
      exact Matched.ok (h.setCq (Or.inr ⟨rfl, rfl⟩) _)
    · simp only [hn, hn']
      exact Matched.error _

theorem Alike.post (h : Alike p p') (posted : Except Fault (VirtualCqRequest × IbvVirtualQp)) :
    Matched Agree (p.post posted) (p'.post posted) := by
  unfold Process.post
  cases posted with
  | ok r =>
    apply Matched.bind ((h.setVqp r.2).submitRequestToVirtualCq r.1)
    exact fun q q' hq => Matched.ok ⟨rfl, hq⟩
  | error f =>
    cases f with
    | error e => exact Matched.ok ⟨rfl, h⟩
    | _ => exact Matched.error _

theorem Side.of_alike {q q' : Process} (hside : Side p p' a a')
    (hsend : q.sendCq = p.sendCq) (hsend' : q'.sendCq = p'.sendCq) (hrecv : q.recvCq = p.recvCq)
    (hrecv' : q'.recvCq = p'.recvCq) : Side q q' a a' := by
  unfold Side
  rw [hsend, hsend', hrecv, hrecv']
  exact hside

theorem submitRequestToVirtualQp_cqs {request : VirtualQpRequest}
    {r : Except Error VirtualQpResponse × Process}
    (h : p.submitRequestToVirtualQp request = .ok r) :
    r.2.sendCq = p.sendCq ∧ r.2.recvCq = p.recvCq := by
  unfold Process.submitRequestToVirtualQp at h
  split at h
  · cases h
  · split at h
    · cases h
      exact ⟨rfl, rfl⟩
    · cases h
      exact ⟨rfl, rfl⟩
    · cases h

section

variable (h : Alike p p') (hside : Side p p' a a')
include h hside

theorem Alike.submit (request : VirtualQpRequest) :
    Matched (fun r r' => Agree r r' ∧ Side r.2 r'.2 a a') (p.submitRequestToVirtualQp request)
      (p'.submitRequestToVirtualQp request) := by
  apply (h.submitRequestToVirtualQp request).with_ok.mono
  rintro r r' ⟨hagree, hr, hr'⟩
  have hcqs := submitRequestToVirtualQp_cqs hr
  have hcqs' := submitRequestToVirtualQp_cqs hr'
  exact ⟨hagree, hside.of_alike hcqs.1 hcqs'.1 hcqs.2 hcqs'.2⟩

theorem Alike.processRecvWc (physicalWc : IbvWc) :
    Matched Agree (p.processRecvWc a physicalWc) (p'.processRecvWc a' physicalWc) := by
  unfold Process.processRecvWc
  apply Matched.bind (h.submit hside _)
  rintro ⟨response, q⟩ ⟨response', q'⟩ ⟨⟨heq, hq⟩, hqside⟩
  cases heq
  cases response with
  | error e => exact Matched.ok ⟨rfl, hq⟩
  | ok response =>
    simp only
    rw [hq.at_side hqside]
    split_ifs with hdqplb
    · exact Matched.ok ⟨rfl, hq.setCq hqside _⟩
    · apply Matched.bind (Matched.of_eq (R := Eq) fun _ => rfl)
      rintro r _ rfl
      exact Matched.ok ⟨rfl, hq.setCq hqside _⟩

theorem Alike.processSendWc (physicalWc : IbvWc) :
    Matched Agree (p.processSendWc a physicalWc) (p'.processSendWc a' physicalWc) := by
  unfold Process.processSendWc
  apply Matched.bind (h.submit hside _)
  rintro ⟨response, q⟩ ⟨response', q'⟩ ⟨⟨heq, hq⟩, hqside⟩
  cases heq
  cases response with
  | error e => exact Matched.ok ⟨rfl, hq⟩
  | ok response =>
    simp only
    rw [hq.at_side hqside]
    apply Matched.bind (Matched.of_eq (R := Eq) fun _ => rfl)
    rintro ⟨w, cq⟩ _ rfl
    simp only
    split_ifs with hnotify
    · apply Matched.bind ((hq.setCq hqside cq).submitRequestToVirtualQp _)
      rintro ⟨notified, s⟩ ⟨notified', s'⟩ ⟨heq, hs⟩
      cases heq
      cases notified with
      | error e => exact Matched.ok ⟨rfl, hs⟩
      | ok r => exact Matched.ok ⟨rfl, hs⟩
    · exact Matched.ok ⟨rfl, hq.setCq hqside cq⟩

theorem Alike.pollVirtualCq (numEntries : ℕ) :
    Matched Agree (p.pollVirtualCq a numEntries) (p'.pollVirtualCq a' numEntries) := by
  unfold Process.pollVirtualCq
  rw [h.at_side hside]
  split_ifs with hnull
  · exact Matched.error _
  · apply Matched.bind (Matched.of_eq (R := Eq) fun _ => rfl)
    rintro ⟨wcs, cq⟩ _ rfl
    exact Matched.ok ⟨rfl, h.setCq hside cq⟩

end

theorem Alike.sendCompletion (h : Alike p p') (qpIdx : Option ℕ) (wc : IbvWc) :
    Matched Agree (p.sendCompletion qpIdx wc) (p'.sendCompletion qpIdx wc) := by
  unfold Process.sendCompletion
  rw [h.vqp, h.sendCq, h.sendPhysicalCq]
  split
  · exact Matched.error _
  · split
    · exact Matched.ok ⟨rfl, h⟩
    · by_cases hheld : (p'.vcqs p'.sendCq).physicalCq_ = some p'.sendPhysicalCq
      · rw [if_pos hheld, if_pos hheld]
        exact (h.setVqp _).processSendWc (Or.inl ⟨rfl, rfl⟩) _
      · rw [if_neg hheld, if_neg hheld]
        exact Matched.error _

theorem Alike.recvCompletion (h : Alike p p') (qpIdx : Option ℕ) (withImm : Bool) (wc : IbvWc) :
    Matched Agree (p.recvCompletion qpIdx withImm wc) (p'.recvCompletion qpIdx withImm wc) := by
  unfold Process.recvCompletion
  rw [h.vqp, h.recvCq, h.recvPhysicalCq]
  split
  · exact Matched.error _
  · split
    · exact Matched.ok ⟨rfl, h⟩
    · by_cases hheld : (p'.vcqs p'.recvCq).physicalCq_ = some p'.recvPhysicalCq
      · rw [if_pos hheld, if_pos hheld]
        exact (h.setVqp _).processRecvWc (Or.inr ⟨rfl, rfl⟩) _
      · rw [if_neg hheld, if_neg hheld]
        exact Matched.error _

theorem Alike.call (h : Alike p p') (c : Call) : Matched Agree (p.call c) (p'.call c) := by
  cases c with
  | postSend sendWr =>
    unfold Process.call Process.postSend
    simp only
    rw [h.vqp]
    exact h.post _
  | postRecv recvWr =>
    unfold Process.call Process.postRecv
    simp only
    rw [h.vqp]
    exact h.post _
  | sendCompletion qpIdx wc => exact h.sendCompletion qpIdx wc
  | recvCompletion qpIdx withImm wc => exact h.recvCompletion qpIdx withImm wc
  | pollSendCq numEntries => exact h.pollVirtualCq (Or.inl ⟨rfl, rfl⟩) numEntries
  | pollRecvCq numEntries => exact h.pollVirtualCq (Or.inr ⟨rfl, rfl⟩) numEntries

/-! ### Moves -/

variable {construct : Bool}

theorem Alike.moveVqp (h : Alike p p') {target : ℕ}
    (hkeep : Keeps p (.vqp target construct)) : Alike (p.moveVqp target construct) p' := by
  unfold Process.moveVqp
  by_cases hself : target = p.vqp
  · rw [if_pos hself]
    exact h
  · rw [if_neg hself]
    simp only
    rw [(hkeep hself).moveFrom]
    constructor
    case vqp =>
      simp only
      rw [Function.update_of_ne hself, Function.update_self, h.vqp]
    case sendCq => exact h.sendCq
    case recvCq => exact h.recvCq
    case shared => exact h.shared
    case sendPhysicalCq => exact h.sendPhysicalCq
    case recvPhysicalCq => exact h.recvPhysicalCq
    case vqpMap => exact h.vqpMap.redirect target
    case sendMap => exact h.sendMap
    case recvMap => exact h.recvMap

theorem vcqs_moved {vcqs : ℕ → VcqObject} {a b target : ℕ} (hself : target ≠ a)
    (hfree : target ≠ b) (o : VcqObject) :
    Function.update (Function.update vcqs target (vcqs a)) a o (if b = a then target else b) =
      vcqs b := by
  by_cases hba : b = a
  · rw [if_pos hba, Function.update_of_ne hself, Function.update_self, hba]
  · rw [if_neg hba, Function.update_of_ne hba, Function.update_of_ne hfree.symm]

theorem Parallel.moved {a b c target : ℕ} (h : Parallel b c map map') :
    Parallel (if b = a then target else b) c (Ibverbx.redirect a target map) map' := by
  by_cases hba : b = a
  · rw [if_pos hba]
    rw [hba] at h
    exact h.redirect target
  · rw [if_neg hba]
    exact h.redirect_ne hba target

theorem Alike.moveCq (h : Alike p p') {a target : ℕ} (hsend : target ≠ p.sendCq)
    (hrecv : target ≠ p.recvCq)
    (hkeep : target ≠ a → (if construct then {} else p.vcqs target).LeftAlike (p.vcqs a)) :
    Alike (p.moveCq a target construct) p' := by
  unfold Process.moveCq
  by_cases hself : target = a
  · rw [if_pos hself]
    exact h
  · rw [if_neg hself]
    simp only
    rw [(hkeep hself).moveFrom]
    constructor
    case vqp => exact h.vqp
    case sendCq =>
      simp only
      rw [vcqs_moved hself hsend, h.sendCq]
    case recvCq =>
      simp only
      rw [vcqs_moved hself hrecv, h.recvCq]
    case shared =>
      simp only
      rw [← h.shared]
      by_cases hs : p.sendCq = a
      · by_cases hr : p.recvCq = a
        · simp [hs, hr]
        · rw [if_pos hs, if_neg hr]
          exact iff_of_false hrecv fun heq => hr (heq.symm.trans hs)
      · by_cases hr : p.recvCq = a
        · rw [if_neg hs, if_pos hr]
          exact iff_of_false hsend.symm fun heq => hs (heq.trans hr)
        · rw [if_neg hs, if_neg hr]
    case sendPhysicalCq => exact h.sendPhysicalCq
    case recvPhysicalCq => exact h.recvPhysicalCq
    case vqpMap => exact h.vqpMap
    case sendMap => exact h.sendMap.moved
    case recvMap => exact h.recvMap.moved

theorem moveCq_self (p : Process) (a : ℕ) (construct : Bool) : p.moveCq a a construct = p := by
  unfold Process.moveCq
  rw [if_pos rfl]

theorem Alike.move (h : Alike p p') {m : Move} (hfree : p.Free m) (hkeep : Keeps p m) :
    Alike (p.move m) p' := by
  cases m with
  | vqp target construct => exact h.moveVqp hkeep
  | sendCq target construct =>
    by_cases hself : target = p.sendCq
    · rw [Process.move, hself, moveCq_self]
      exact h
    · exact h.moveCq hself (fun heq => hself (hfree heq)) hkeep
  | recvCq target construct =>
    by_cases hself : target = p.recvCq
    · rw [Process.move, hself, moveCq_self]
      exact h
    · exact h.moveCq (fun heq => hself (hfree heq)) hself hkeep

/-! ### Runs -/

theorem alike_create (others : ℕ → IbvVirtualQp) (otherCqs : ℕ → VcqObject)
    (vqp sendCq recvCq sendPhysicalCq recvPhysicalCq : ℕ) (qpNums : List ℕ) (notifyQpNum : ℕ)
    (maxMsgCntPerQp maxMsgSize : ℤ) (scheme : LoadBalancingScheme) :
    Alike (create others otherCqs vqp sendCq recvCq sendPhysicalCq recvPhysicalCq qpNums notifyQpNum
        maxMsgCntPerQp maxMsgSize scheme)
      (create others otherCqs vqp sendCq recvCq sendPhysicalCq recvPhysicalCq qpNums notifyQpNum
        maxMsgCntPerQp maxMsgSize scheme) := by
  have hmap (a : ℕ) (P : ℕ → Prop) [DecidablePred P] : Parallel a a
      (fun n => if P n then some a else none) (fun n => if P n then some a else none) := by
    intro n
    by_cases hn : P n
    · left
      simp [hn]
    · right
      simp [hn]
  constructor
  case vqpMap => exact hmap _ _
  case sendMap => exact hmap _ _
  case recvMap => exact hmap _ _
  all_goals rfl

/-- Moves over no other object in use, that lose nothing. -/
def Harmless : List Op → Process × List Seen → Op → Prop
  | _, _, .call _ => True
  | _, s, .move m => s.1.Free m ∧ Keeps s.1 m

/-- The same has been seen of both programs. -/
def SeenAlike (s s' : Process × List Seen) : Prop := s.2 = s'.2 ∧ Alike s.1 s'.1

theorem SeenAlike.act {s s' : Process × List Seen} (h : SeenAlike s s') (c : Call) :
    Matched SeenAlike (act s (.call c)) (act s' (.call c)) := by
  have hcall := h.2.call c
  unfold Process.act
  simp only
  generalize s.1.call c = x at hcall ⊢
  generalize s'.1.call c = y at hcall ⊢
  cases hcall with
  | ok hagree =>
    refine Matched.ok ⟨?_, hagree.2⟩
    simp only
    rw [h.1, hagree.1, hagree.2.vqp]
  | error e => exact Matched.error e

/-- A run whose moves lose nothing shows what the run without them does, up to the same fault. -/
theorem seen_erase_moves (others : ℕ → IbvVirtualQp) (otherCqs : ℕ → VcqObject)
    (vqp sendCq recvCq sendPhysicalCq recvPhysicalCq : ℕ) (qpNums : List ℕ) (notifyQpNum : ℕ)
    (maxMsgCntPerQp maxMsgSize : ℤ) (scheme : LoadBalancingScheme) (ops : List Op)
    (hharmless : Admissible act Harmless [] (create others otherCqs vqp sendCq recvCq sendPhysicalCq
      recvPhysicalCq qpNums notifyQpNum maxMsgCntPerQp maxMsgSize scheme, []) ops) :
    (run act (create others otherCqs vqp sendCq recvCq sendPhysicalCq recvPhysicalCq qpNums
        notifyQpNum maxMsgCntPerQp maxMsgSize scheme, []) ops).map Prod.snd =
      (run act (create others otherCqs vqp sendCq recvCq sendPhysicalCq recvPhysicalCq qpNums
        notifyQpNum maxMsgCntPerQp maxMsgSize scheme, []) (ops.filter Op.isCall)).map Prod.snd := by
  have hinit : SeenAlike (create others otherCqs vqp sendCq recvCq sendPhysicalCq recvPhysicalCq
      qpNums notifyQpNum maxMsgCntPerQp maxMsgSize scheme, []) (create others otherCqs vqp sendCq
      recvCq sendPhysicalCq recvPhysicalCq qpNums notifyQpNum maxMsgCntPerQp maxMsgSize scheme,
      []) := ⟨rfl, alike_create ..⟩
  have hseen : ∀ s t i, SeenAlike s t → i.isCall = true → Matched SeenAlike (act s i) (act t i) := by
    intro s t i hst hi
    cases i with
    | call c => exact hst.act c
    | move m => cases hi
  have hunseen : ∀ past s t i, SeenAlike s t → i.isCall = false → Harmless past s i →
      ∃ s', act s i = .ok s' ∧ SeenAlike s' t := by
    intro past s t i hst hi hmove
    cases i with
    | call c => cases hi
    | move m => exact ⟨_, rfl, hst.1, hst.2.move hmove.1 hmove.2⟩
  exact (run_erase hseen hunseen hinit hharmless).map_eq fun _ _ hst => hst.1

/-- A virtual QP with one data QP that takes one message of four bytes at a time. -/
def narrow : Process :=
  create (fun _ => .blank) (fun _ => {}) 0 0 1 0 1 [1] 2 1 4 .SPRAY

/-- A signaled write of eight bytes. -/
def write8 : IbvSendWr where
  wr_id := 7
  sg_list := some ⟨100, 8, 0⟩
  num_sge := 1
  opcode := .IBV_WR_RDMA_WRITE
  send_flags := IBV_SEND_SIGNALED
  imm_data := 0
  remote_addr := 200
  rkey := 0

/-- The objects move before the first post. -/
theorem seen_erase_early : (run act (narrow, [])
      [.move (.vqp 5 true), .move (.sendCq 6 true), .call (.postSend write8)]).map Prod.snd =
    (run act (narrow, []) [.call (.postSend write8)]).map Prod.snd := by
  apply seen_erase_moves (fun _ => .blank) (fun _ => {}) 0 0 1 0 1 [1] 2 1 4 .SPRAY
    [.move (.vqp 5 true), .move (.sendCq 6 true), .call (.postSend write8)]
  refine ⟨⟨trivial, fun _ => ⟨rfl, rfl, rfl, rfl, rfl, rfl, rfl⟩⟩, ⟨?_, fun _ id => ⟨rfl, ?_⟩⟩,
    trivial, ?_⟩
  · intro heq
    cases heq
  · intro ptr heq
    cases heq
  · split <;> trivial

/-- A move between the post and the completion of its first segment. -/
def late (m : Move) : List Op :=
  [.call (.postSend write8), .move m, .call (.sendCompletion (some 0) {})]

/-- A virtual QP that moves with a segment pending never posts it. A virtual CQ that moves does not
find the completion that the virtual QP reports. -/
theorem seen_differ_late :
    (run act (narrow, []) (late (.vqp 5 true))).map Prod.snd ≠
      (run act (narrow, []) ((late (.vqp 5 true)).filter Op.isCall)).map Prod.snd ∧
    (run act (narrow, []) (late (.sendCq 5 true))).map Prod.snd ≠
      (run act (narrow, []) ((late (.sendCq 5 true)).filter Op.isCall)).map Prod.snd := by
  constructor
  all_goals decide +kernel

end Process
end TorchComms.Ibverbx
