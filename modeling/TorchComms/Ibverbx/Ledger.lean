import TorchComms.Ibverbx.VirtualCq

/-! # The ledger of a virtual CQ

`left id` is the number of parts of the work request `id` that have not completed. A queue of
virtual completions is in order when its counters say the same and the map leads to its
entries.
-/
namespace TorchComms.Ibverbx

open Foundation

/-- The ids of the work requests in a queue. -/
def wrIds (que : StableDeque VirtualWc) : List ℕ := que.items.map VirtualWc.wr_id

structure Charged (ptr : ℕ → WcPtr) (que : StableDeque VirtualWc)
    (map : ℕ → Option (Option WcPtr)) (left : ℕ → ℤ) : Prop where
  nodup : (wrIds que).Nodup
  named : ∀ i w, que.get? i = some w → map w.wr_id = some (some (ptr i))
  exact : ∀ w ∈ que.items, w.remainingMsgCnt = left w.wr_id
  known : ∀ id, id ∉ wrIds que → left id = 0

namespace Charged

variable {ptr : ℕ → WcPtr} {que : StableDeque VirtualWc} {map map' : ℕ → Option (Option WcPtr)}
  {left left' : ℕ → ℤ} {id : ℕ}

theorem empty (ptr : ℕ → WcPtr) (map : ℕ → Option (Option WcPtr)) :
    Charged ptr {} map fun _ => 0 where
  nodup := List.nodup_nil
  named := by simp [StableDeque.get?]
  exact := by simp
  known := fun _ _ => rfl

section

variable (h : Charged ptr que map left)
include h

theorem of_map (hmap : ∀ id ∈ wrIds que, map' id = map id) : Charged ptr que map' left :=
  { h with
    named := by
      intro i w hw
      rw [hmap w.wr_id (List.mem_map_of_mem (StableDeque.mem_of_get? hw))]
      exact h.named i w hw }

theorem of_left (hleft : ∀ id, left' id = left id) : Charged ptr que map left' where
  __ := h
  exact := fun w hw => (h.exact w hw).trans (hleft _).symm
  known := fun id hid => (hleft id).trans (h.known id hid)

theorem push (hnew : id ∉ wrIds que) (qpNum : ℕ) (n : ℤ)
    (extra : Bool) (hleft : ∀ j, left' j = left j + if id = j then n else 0) :
    Charged ptr (que.push_back (.fresh id qpNum n extra))
      (Function.update map id (some (some (ptr (que.push_back (.fresh id qpNum n extra)).back))))
      left' where
  nodup := by
    simp only [wrIds, StableDeque.push_back, List.map_append]
    apply List.Nodup.append h.nodup (List.nodup_singleton _)
    rw [List.disjoint_singleton]
    exact hnew
  named := by
    intro i w hw
    rcases StableDeque.get?_push_back_cases hw with hold | ⟨hi, hw⟩
    · have hne : w.wr_id ≠ id := by
        rintro rfl
        exact hnew (List.mem_map_of_mem (StableDeque.mem_of_get? hold))
      rw [Function.update_of_ne hne]
      exact h.named i w hold
    · rw [hi, hw]
      exact Function.update_self _ _ _
  exact := by
    intro w hw
    rw [hleft]
    rcases List.mem_append.mp hw with hold | hlast
    · have hne : id ≠ w.wr_id := by
        rintro rfl
        exact hnew (List.mem_map_of_mem hold)
      rw [if_neg hne, Int.add_zero]
      exact h.exact w hold
    · rw [List.mem_singleton.mp hlast]
      change n = left id + if id = id then n else 0
      rw [if_pos rfl, h.known id hnew, Int.zero_add]
  known := by
    intro j hj
    simp only [wrIds, StableDeque.push_back, List.map_append, List.mem_append, not_or] at hj
    rw [hleft, h.known j hj.1, if_neg, Int.add_zero]
    rintro rfl
    exact hj.2 (List.mem_singleton.mpr rfl)

theorem find (hleft : left id ≠ 0) :
    ∃ i w, map id = some (some (ptr i)) ∧ que.get? i = some w ∧ w.wr_id = id ∧ w ∈ que.items := by
  have hmem : id ∈ wrIds que := by
    by_contra hnot
    exact hleft (h.known id hnot)
  rcases List.mem_map.mp hmem with ⟨w, hw, rfl⟩
  rcases StableDeque.get?_of_mem hw with ⟨i, hi⟩
  exact ⟨i, w, h.named i w hi, hi, rfl, hw⟩

variable {w : VirtualWc}

theorem charge {i : ℕ} (hi : que.get? i = some w) (pwc : IbvWc)
    (hleft : ∀ j, left' j = left j - if w.wr_id = j then 1 else 0) :
    (que.modify i fun w => w.charge pwc).items =
        que.items.map (fun u => if u.wr_id = w.wr_id then u.charge pwc else u) ∧
      Charged ptr (que.modify i fun w => w.charge pwc) map left' := by
  have hitems := StableDeque.modify_items h.nodup hi fun w => w.charge pwc
  have hids : wrIds (que.modify i fun w => w.charge pwc) = wrIds que := by
    rw [wrIds, hitems, List.map_map]
    apply List.map_congr_left
    intro u _
    simp only [Function.comp_apply]
    split <;> rfl
  refine ⟨hitems, ?_⟩
  exact
    { nodup := by
        rw [hids]
        exact h.nodup
      named := by
        intro j u hu
        rw [StableDeque.get?_modify que i j _ (StableDeque.get?_eq_some.mp hi).1,
          Option.map_eq_some_iff] at hu
        rcases hu with ⟨u', hu', rfl⟩
        have hid : (if i = j then u'.charge pwc else u').wr_id = u'.wr_id := by
          split <;> rfl
        rw [hid]
        exact h.named j u' hu'
      exact := by
        intro u hu
        rw [hitems] at hu
        rcases List.mem_map.mp hu with ⟨u', hu', rfl⟩
        rw [hleft]
        by_cases hkey : u'.wr_id = w.wr_id
        · rw [if_pos hkey, VirtualWc.charge_wr_id, VirtualWc.charge_remainingMsgCnt, hkey,
            if_pos rfl, h.exact u' hu', hkey]
        · rw [if_neg hkey, if_neg (Ne.symm hkey), Int.sub_zero]
          exact h.exact u' hu'
      known := by
        intro j hj
        rw [hids] at hj
        rw [hleft, h.known j hj, if_neg, Int.sub_zero]
        rintro rfl
        exact hj (List.mem_map_of_mem (StableDeque.mem_of_get? hi)) }

theorem pop {ws : List VirtualWc} (hitems : que.items = w :: ws) (hzero : left w.wr_id = 0) :
    Charged ptr que.pop_front (Function.update map w.wr_id none) left := by
  have hnodup := h.nodup
  rw [wrIds, hitems, List.map_cons, List.nodup_cons] at hnodup
  have htail : que.pop_front.items = ws := by rw [StableDeque.pop_front, hitems, List.tail_cons]
  exact
    { nodup := by
        rw [wrIds, htail]
        exact hnodup.2
      named := by
        intro i u hu
        have hmem := StableDeque.mem_of_get? hu
        rw [htail] at hmem
        have hne : u.wr_id ≠ w.wr_id := by
          intro heq
          exact hnodup.1 (heq ▸ List.mem_map_of_mem hmem)
        rw [Function.update_of_ne hne]
        exact h.named i u (StableDeque.get?_pop_front hu)
      exact := by
        intro u hu
        rw [htail] at hu
        exact h.exact u (by rw [hitems]; exact List.mem_cons_of_mem _ hu)
      known := by
        intro j hj
        by_cases hjw : j = w.wr_id
        · rw [hjw]
          exact hzero
        · apply h.known
          rw [wrIds, hitems, List.map_cons, List.mem_cons, not_or]
          rw [wrIds, htail] at hj
          exact ⟨hjw, hj⟩ }

end

end Charged

/-- Both queues of a CQ are in order and share no id. -/
structure Ledger (cq : IbvVirtualCq) (sent received : ℕ → ℤ) : Prop where
  send : Charged .send cq.pendingSendVirtualWcQue_ cq.virtualWrIdToVirtualWc_ sent
  recv : Charged .recv cq.pendingRecvVirtualWcQue_ cq.virtualWrIdToVirtualWc_ received
  apart : ∀ id ∈ wrIds cq.pendingSendVirtualWcQue_, id ∉ wrIds cq.pendingRecvVirtualWcQue_

namespace Ledger

variable {cq : IbvVirtualCq} {sent sent' received received' : ℕ → ℤ} {id : ℕ}

theorem empty : Ledger {} (fun _ => 0) fun _ => 0 :=
  ⟨Charged.empty _ _, Charged.empty _ _, by simp [wrIds]⟩

section

variable (h : Ledger cq sent received)
include h

theorem of_left (hsent : ∀ id, sent' id = sent id)
    (hreceived : ∀ id, received' id = received id) : Ledger cq sent' received' :=
  ⟨h.send.of_left hsent, h.recv.of_left hreceived, h.apart⟩

theorem pushSend {wr : IbvSendWr} (hsig : wr.signaled ∨ wr.opcode = .IBV_WR_RDMA_WRITE_WITH_IMM)
    (hnew : wr.wr_id ∉ wrIds cq.pendingSendVirtualWcQue_)
    (hnew' : wr.wr_id ∉ wrIds cq.pendingRecvVirtualWcQue_) (qpNum : ℕ) (n : ℤ) (extra : Bool)
    (hleft : ∀ j, sent' j = sent j + if wr.wr_id = j then n else 0) :
    Ledger (cq.processRequest (.SEND qpNum n wr extra)) sent' received ∧
      (cq.processRequest (.SEND qpNum n wr extra)).pendingSendVirtualWcQue_ =
        cq.pendingSendVirtualWcQue_.push_back (.fresh wr.wr_id qpNum n extra) ∧
      (cq.processRequest (.SEND qpNum n wr extra)).pendingRecvVirtualWcQue_ =
        cq.pendingRecvVirtualWcQue_ := by
  simp only [IbvVirtualCq.processRequest, hsig, if_true]
  refine ⟨⟨h.send.push hnew qpNum n extra hleft, ?_, ?_⟩, trivial, trivial⟩
  · apply h.recv.of_map
    intro j hj
    apply Function.update_of_ne
    rintro rfl
    exact hnew' hj
  · intro j hj
    simp only [wrIds, StableDeque.push_back, List.map_append, List.mem_append] at hj
    rcases hj with hj | hj
    · exact h.apart j hj
    · rw [List.map_singleton, List.mem_singleton] at hj
      rw [hj]
      exact hnew'

theorem pushRecv {wr : IbvRecvWr} (hnew : wr.wr_id ∉ wrIds cq.pendingRecvVirtualWcQue_)
    (hnew' : wr.wr_id ∉ wrIds cq.pendingSendVirtualWcQue_) (qpNum : ℕ) (n : ℤ)
    (hleft : ∀ j, received' j = received j + if wr.wr_id = j then n else 0) :
    Ledger (cq.processRequest (.RECV qpNum n wr)) sent received' := by
  simp only [IbvVirtualCq.processRequest]
  refine ⟨?_, h.recv.push hnew qpNum n false hleft, ?_⟩
  · apply h.send.of_map
    intro j hj
    apply Function.update_of_ne
    rintro rfl
    exact hnew' hj
  · intro j hj hj'
    simp only [wrIds, StableDeque.push_back, List.map_append, List.mem_append] at hj'
    rcases hj' with hj' | hj'
    · exact h.apart j hj hj'
    · rw [List.map_singleton, List.mem_singleton] at hj'
      rw [hj'] at hj
      exact hnew' hj

/-- A send completion is charged to the send with its id, and to nothing else. -/
theorem chargeSend (hpos : sent id ≠ 0) (pwc : IbvWc)
    (hleft : ∀ j, sent' j = sent j - if id = j then 1 else 0) :
    ∃ w cq', cq.charge id pwc = .ok (w.charge pwc, cq') ∧ Ledger cq' sent' received ∧
      w ∈ cq.pendingSendVirtualWcQue_.items ∧ w.wr_id = id ∧
      cq'.pendingSendVirtualWcQue_.items = cq.pendingSendVirtualWcQue_.items.map
        (fun u => if u.wr_id = id then u.charge pwc else u) ∧
      cq'.pendingRecvVirtualWcQue_ = cq.pendingRecvVirtualWcQue_ := by
  rcases h.send.find hpos with ⟨i, w, hmap, hget, rfl, hw⟩
  rcases h.send.charge hget pwc hleft with ⟨hitems, hcharged⟩
  refine ⟨w, cq.modify (fun w => w.charge pwc) (.send i), ?_, ⟨hcharged, h.recv, ?_⟩, hw, rfl,
    hitems, rfl⟩
  · simp only [IbvVirtualCq.charge, hmap, IbvVirtualCq.deref, hget]
  · intro j hj
    apply h.apart
    simp only [IbvVirtualCq.modify, wrIds, hitems, List.map_map] at hj ⊢
    rw [List.map_congr_left] at hj
    · exact hj
    · intro u _
      simp only [Function.comp_apply]
      split <;> rfl

theorem chargeRecv (hpos : received id ≠ 0) (pwc : IbvWc)
    (hleft : ∀ j, received' j = received j - if id = j then 1 else 0) :
    ∃ w cq', cq.charge id pwc = .ok (w.charge pwc, cq') ∧ Ledger cq' sent received' ∧
      w ∈ cq.pendingRecvVirtualWcQue_.items ∧ w.wr_id = id ∧
      cq'.pendingRecvVirtualWcQue_.items = cq.pendingRecvVirtualWcQue_.items.map
        (fun u => if u.wr_id = id then u.charge pwc else u) ∧
      cq'.pendingSendVirtualWcQue_ = cq.pendingSendVirtualWcQue_ := by
  rcases h.recv.find hpos with ⟨i, w, hmap, hget, rfl, hw⟩
  rcases h.recv.charge hget pwc hleft with ⟨hitems, hcharged⟩
  refine ⟨w, cq.modify (fun w => w.charge pwc) (.recv i), ?_, ⟨h.send, hcharged, ?_⟩, hw, rfl,
    hitems, rfl⟩
  · simp only [IbvVirtualCq.charge, hmap, IbvVirtualCq.deref, hget]
  · intro j hj hj'
    apply h.apart j hj
    simp only [IbvVirtualCq.modify, wrIds, hitems, List.map_map] at hj' ⊢
    rw [List.map_congr_left] at hj'
    · exact hj'
    · intro u _
      simp only [Function.comp_apply]
      split <;> rfl

end

/-! ### Polling -/

theorem pollFront_spec {ptr : ℕ → WcPtr} {left : ℕ → ℤ} {s : IbvVirtualCq.PollFront}
    (h : Charged ptr s.que s.map left) (hnonneg : ∀ id, 0 ≤ left id) :
    ∃ ps, s.que.items = ps ++ (IbvVirtualCq.pollFront s).que.items ∧
      (∀ w ∈ ps, left w.wr_id = 0) ∧
      Charged ptr (IbvVirtualCq.pollFront s).que (IbvVirtualCq.pollFront s).map left ∧
      (∀ id, id ∉ wrIds s.que → (IbvVirtualCq.pollFront s).map id = s.map id) ∧
      (IbvVirtualCq.pollFront s).wcs = s.wcs ++ ps.map VirtualWc.wc := by
  rcases IbvVirtualCq.pollFront_cases s with ⟨hque, hmap, hwcs⟩ | ⟨w, hitems, hleft, hque, hmap, hwcs⟩
  · rw [hque, hmap, hwcs]
    exact ⟨[], rfl, by simp, h, fun _ _ => rfl, by simp⟩
  · have hw : w ∈ s.que.items := by
      rw [hitems]
      exact List.mem_cons_self
    have hzero : left w.wr_id = 0 := by
      have hexact := h.exact w hw
      have hge := hnonneg w.wr_id
      omega
    refine ⟨[w], hitems, by simpa using hzero, ?_, ?_, by rw [hwcs]; rfl⟩
    · rw [hque, hmap]
      exact h.pop hitems hzero
    · intro id hid
      rw [hmap]
      apply Function.update_of_ne
      rintro rfl
      exact hid (List.mem_map_of_mem hw)

/-- A polling run on `cq` that has reported the sends `ps` and the receives `pr`. -/
structure Polled (sent received : ℕ → ℤ) (cq : IbvVirtualCq) (ps pr : List VirtualWc)
    (s : IbvVirtualCq.PollState) : Prop where
  ledger : Ledger s.cq sent received
  sends : cq.pendingSendVirtualWcQue_.items = ps ++ s.cq.pendingSendVirtualWcQue_.items
  recvs : cq.pendingRecvVirtualWcQue_.items = pr ++ s.cq.pendingRecvVirtualWcQue_.items
  sendsDone : ∀ w ∈ ps, sent w.wr_id = 0
  recvsDone : ∀ w ∈ pr, received w.wr_id = 0
  wcs : s.wcs.Perm ((ps ++ pr).map VirtualWc.wc)

variable {ps pr : List VirtualWc} {s : IbvVirtualCq.PollState}

theorem wrIds_subset {que que' : StableDeque VirtualWc} {ws : List VirtualWc}
    (h : que.items = ws ++ que'.items) : ∀ id ∈ wrIds que', id ∈ wrIds que := by
  intro id hid
  rw [wrIds, h, List.map_append]
  exact List.mem_append_right _ hid

theorem Polled.pollSend (h : Polled sent received cq ps pr s) (hnonneg : ∀ id, 0 ≤ sent id) :
    ∃ ps', Polled sent received cq ps' pr (IbvVirtualCq.pollSend s) := by
  rcases pollFront_spec (s := ⟨s.cq.pendingSendVirtualWcQue_, s.cq.virtualWrIdToVirtualWc_, s.wcs,
    s.virtualSendCqPollComplete⟩) h.ledger.send hnonneg with
    ⟨ws, hitems, hdone, hcharged, hmap, hwcs⟩
  refine ⟨ps ++ ws, ⟨hcharged, ?_, ?_⟩, ?_, h.recvs, ?_, h.recvsDone, ?_⟩
  · apply h.ledger.recv.of_map
    intro id hid
    exact hmap id fun hsend => h.ledger.apart id hsend hid
  · intro id hid
    exact h.ledger.apart id (wrIds_subset hitems id hid)
  · rw [List.append_assoc, h.sends]
    exact congrArg (ps ++ ·) hitems
  · intro w hw
    rcases List.mem_append.mp hw with hw | hw
    · exact h.sendsDone w hw
    · exact hdone w hw
  · change (IbvVirtualCq.pollFront _).wcs.Perm _
    rw [hwcs]
    refine (h.wcs.append_right _).trans ?_
    simp only [List.map_append, List.append_assoc]
    exact List.perm_append_comm.append_left _

theorem Polled.pollRecv (h : Polled sent received cq ps pr s) (hnonneg : ∀ id, 0 ≤ received id) :
    ∃ pr', Polled sent received cq ps pr' (IbvVirtualCq.pollRecv s) := by
  rcases pollFront_spec (s := ⟨s.cq.pendingRecvVirtualWcQue_, s.cq.virtualWrIdToVirtualWc_, s.wcs,
    s.virtualRecvCqPollComplete⟩) h.ledger.recv hnonneg with
    ⟨ws, hitems, hdone, hcharged, hmap, hwcs⟩
  refine ⟨pr ++ ws, ⟨?_, hcharged, ?_⟩, h.sends, ?_, h.sendsDone, ?_, ?_⟩
  · apply h.ledger.send.of_map
    intro id hid
    exact hmap id (h.ledger.apart id hid)
  · intro id hid hid'
    exact h.ledger.apart id hid (wrIds_subset hitems id hid')
  · rw [List.append_assoc, h.recvs]
    exact congrArg (pr ++ ·) hitems
  · intro w hw
    rcases List.mem_append.mp hw with hw | hw
    · exact h.recvsDone w hw
    · exact hdone w hw
  · change (IbvVirtualCq.pollFront _).wcs.Perm _
    rw [hwcs]
    refine (h.wcs.append_right _).trans ?_
    simp only [List.map_append, List.append_assoc]
    exact List.Perm.refl _

/-- Polling ends, reports only work requests without parts left, all that it has room for, and keeps
the CQ in order. -/
theorem poll (h : Ledger cq sent received) (hsent : ∀ id, 0 ≤ sent id)
    (hreceived : ∀ id, 0 ≤ received id) (numEntries : ℕ) :
    ∃ wcs cq' ps pr, cq.loopPollVirtualCqUntil numEntries = .ok (wcs, cq') ∧
      Polled sent received cq ps pr { cq := cq', wcs := wcs } ∧
      (numEntries ≤ wcs.length ∨ IbvVirtualCq.Waits cq'.pendingSendVirtualWcQue_ ∧
        IbvVirtualCq.Waits cq'.pendingRecvVirtualWcQue_) := by
  have hstart : Polled sent received cq [] [] { cq := cq } :=
    ⟨h, rfl, rfl, by simp, by simp, List.Perm.refl _⟩
  rcases IbvVirtualCq.poll_invariant cq (fun s => ∃ ps pr, Polled sent received cq ps pr s)
    (by
      rintro s ⟨ps, pr, hs⟩
      rcases hs.pollSend hsent with ⟨ps', hs'⟩
      exact ⟨ps', pr, hs'⟩)
    (by
      rintro s ⟨ps, pr, hs⟩
      rcases hs.pollRecv hreceived with ⟨pr', hs'⟩
      exact ⟨ps, pr', hs'⟩)
    ⟨[], [], hstart⟩ numEntries with ⟨s, hok, ⟨ps, pr, hs⟩, hprogress⟩
  exact ⟨s.wcs, s.cq, ps, pr, hok, ⟨hs.ledger, hs.sends, hs.recvs, hs.sendsDone, hs.recvsDone,
    hs.wcs⟩, hprogress⟩

end Ledger
end TorchComms.Ibverbx
