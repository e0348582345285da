import TorchComms.CtranIb.VcLogs

/-! # Notifications of spray puts are safe and sent once

The notify QP gets a put's notification when the data of the put, and of all puts before it, has
completed. The notifications wait in one queue for the room that the QP has.
-/
namespace TorchComms.CtranIb

/-- A put whose notification is a message of its own. -/
def Issued.Spray (i : Issued) : Prop :=
  i.kind = .put ∧ i.fast = false ∧ i.vcMode = .spray ∧ i.notify = true

namespace CtranIbVirtualConn

open Foundation Relation

variable {t t' : CtranIbVirtualConn} {kind k : OpKind} {op : OpInfo} {rest : List OpInfo}
  {p : Posted} {f : FastOpInfo} {fs : List FastOpInfo} {n : NotifyInfo} {ns : List NotifyInfo}

/-! ### The queue of notifications -/

/-- Nothing waits while the notify QP has room. -/
structure Throttled (t : CtranIbVirtualConn) : Prop where
  limit : t.outstandingNotifies_.length ≤ MAX_SEND_WR
  full : t.pendingNotifies_ ≠ [] → t.outstandingNotifies_.length = MAX_SEND_WR

theorem throttled_tryPostImmNotifyMsg (hlimit : t.outstandingNotifies_.length ≤ MAX_SEND_WR)
    (hroom : t.pendingNotifies_.length ≤ 1 ∨ MAX_SEND_WR ≤ t.outstandingNotifies_.length + 1) :
    t.tryPostImmNotifyMsg.Throttled := by
  unfold tryPostImmNotifyMsg
  split
  · rename_i hfull
    exact ⟨hlimit, fun _ => Nat.le_antisymm hlimit hfull⟩
  · rename_i hfree
    split
    · rename_i hnone
      exact ⟨hlimit, fun hne => absurd hnone hne⟩
    · rename_i n ns hcons
      rw [hcons, List.length_cons] at hroom
      constructor
      · rw [List.length_append, List.length_singleton]
        exact Nat.lt_of_not_le hfree
      · intro hne
        have hpos : 0 < ns.length := List.length_pos_iff.mpr hne
        rw [List.length_append, List.length_singleton]
        omega

theorem tryPostImmNotifyMsg_frame (t : CtranIbVirtualConn) :
    t.tryPostImmNotifyMsg.outstandingNotifies_ ++ t.tryPostImmNotifyMsg.pendingNotifies_ =
        t.outstandingNotifies_ ++ t.pendingNotifies_ ∧
      t.tryPostImmNotifyMsg.notified = t.notified ∧ t.tryPostImmNotifyMsg.queued = t.queued ∧
      t.tryPostImmNotifyMsg.calls = t.calls ∧ t.tryPostImmNotifyMsg.completed = t.completed ∧
      t.tryPostImmNotifyMsg.nextWrId_ = t.nextWrId_ ∧
      t.tryPostImmNotifyMsg.requests = t.requests := by
  unfold tryPostImmNotifyMsg
  split
  · exact ⟨rfl, rfl, rfl, rfl, rfl, rfl, rfl⟩
  · split
    · exact ⟨rfl, rfl, rfl, rfl, rfl, rfl, rfl⟩
    · rename_i n ns hcons
      refine ⟨?_, rfl, rfl, rfl, rfl, rfl, rfl⟩
      simp [hcons]

theorem Throttled.queueNotify (h : t.Throttled) (req putId : Option ℕ) :
    (t.queueNotify req putId).Throttled := by
  apply throttled_tryPostImmNotifyMsg
  · exact h.limit
  · by_cases hne : t.pendingNotifies_ = []
    · left
      change (t.pendingNotifies_ ++ [_]).length ≤ 1
      simp [hne]
    · right
      change _ ≤ t.outstandingNotifies_.length + 1
      rw [h.full hne]
      exact Nat.le_succ _

theorem Throttled.finishOp (h : t.Throttled) (kind : OpKind) (op : OpInfo) :
    (t.finishOp kind op).Throttled := by
  unfold CtranIbVirtualConn.finishOp
  split
  · exact h.queueNotify ..
  · exact ⟨h.limit, h.full⟩

theorem Throttled.change (h : t.Throttled) (hchange : Change t t') : t'.Throttled := by
  cases hchange with
  | posting _ kind hpost => cases hpost <;> exact ⟨h.limit, h.full⟩
  | burning _ kind hburn =>
    cases hburn with
    | one op rest =>
      have hfinish := h.finishOp kind op
      exact ⟨hfinish.limit, hfinish.full⟩
  | bump kind => exact ⟨h.limit, h.full⟩
  | push kind a lkeys hget => exact ⟨h.limit, h.full⟩
  | fast kind a lkeys hget hvalid => exact ⟨h.limit, h.full⟩
  | wqe p hp hfast => exact ⟨h.limit, h.full⟩
  | fastDone p f fs hp hfast hf => exact ⟨h.limit, h.full⟩
  | notify req => exact Throttled.queueNotify (t := t.acceptNotify req) ⟨h.limit, h.full⟩ req none
  | noticed n ns hout =>
    have hlimit := h.limit
    have hfull := h.full
    rw [hout, List.length_cons] at hlimit hfull
    apply throttled_tryPostImmNotifyMsg
    · exact Nat.le_of_succ_le hlimit
    · by_cases hne : t.pendingNotifies_ = []
      · left
        change t.pendingNotifies_.length ≤ 1
        simp [hne]
      · right
        change MAX_SEND_WR ≤ ns.length + 1
        exact Nat.le_of_eq (hfull hne).symm

theorem mem_completeReq {owner : Owner} {req : Option ℕ} {x : Owner × ℕ}
    (h : x ∈ (t.completeReq owner req).completed) : x ∈ t.completed ∨ x.1 = owner := by
  rcases List.mem_append.mp h with hold | hnew
  · exact Or.inl hold
  · cases req with
    | none => cases hnew
    | some r =>
      rw [Option.map_some, Option.toList_some, List.mem_singleton] at hnew
      exact Or.inr (congrArg Prod.fst hnew)

/-! ### What a notification says -/

/-- Every put up to the number is gone from the queues and from the wire. -/
structure Passed (t : CtranIbVirtualConn) (id : ℕ) : Prop where
  taken : id < t.opId_ .put
  live : ∀ id' ∈ t.liveIds .put, id < id'
  wire : ∀ p ∈ t.wire, p.kind = .put → id < p.id

structure Noticing (t : CtranIbVirtualConn) : Prop where
  split : t.queued = t.notified ++ (t.outstandingNotifies_ ++ t.pendingNotifies_)
  passed : ∀ n ∈ t.queued, ∀ id, n.putId = some id → t.Passed id
  sorted : (t.queued.filterMap (·.putId)).Pairwise (· < ·)
  calls : (t.queued.filter (·.putId.isNone)).map (·.wrId) = t.calls
  callsSorted : t.calls.Pairwise (· < ·)
  callsFresh : ∀ wrId ∈ t.calls, wrId < t.nextWrId_
  origin : ∀ n ∈ t.queued, ∀ id, n.putId = some id → ∃ i ∈ t.issued, i.Spray ∧ i.id = id
  reported : ∀ kind id r, (Owner.op kind id, r) ∈ t.completed → ∃ i ∈ t.issued, i.kind = kind ∧ i.id = id
  last : ∀ i ∈ t.issued, i.Spray → ∀ r, (Owner.op .put i.id, r) ∈ t.completed →
    ∃ n ∈ t.notified, n.putId = some i.id

theorem noticing_init (cfg : VcConfig) : Noticing { cfg := cfg } where
  split := rfl
  passed _ h := nomatch h
  sorted := List.Pairwise.nil
  calls := rfl
  callsSorted := List.Pairwise.nil
  callsFresh _ h := nomatch h
  origin _ h := nomatch h
  reported _ _ _ h := nomatch h
  last _ h := nomatch h

variable {id : ℕ}

theorem NotifyInfo.owner_eq {kind : OpKind} (h : n.owner = .op kind id) :
    kind = .put ∧ n.putId = some id := by
  unfold NotifyInfo.owner at h
  cases hput : n.putId with
  | none =>
    rw [hput] at h
    cases h
  | some id' =>
    rw [hput] at h
    cases h
    exact ⟨rfl, rfl⟩

/-- The operations, the wire and the logs go on as a change lets them. -/
structure Onward (t t' : CtranIbVirtualConn) : Prop where
  opId : t.opId_ .put ≤ t'.opId_ .put
  live : ∀ id ∈ t'.liveIds .put, id ∈ t.liveIds .put ∨ id = t.opId_ .put
  wire : ∀ p ∈ t'.wire, p.kind = .put →
    (∃ p' ∈ t.wire, p'.kind = .put ∧ p'.id = p.id) ∨ p.id ∈ t.liveIds .put ∨ p.id = t.opId_ .put
  nextWrId : t.nextWrId_ ≤ t'.nextWrId_
  issued : ∀ i ∈ t.issued, i ∈ t'.issued
  issuedNew : ∀ i ∈ t'.issued, i ∈ t.issued ∨ t.opId_ i.kind ≤ i.id

theorem Passed.onward (h : t.Passed id) (hon : Onward t t') : t'.Passed id where
  taken := Nat.lt_of_lt_of_le h.taken hon.opId
  live id' hid' := by
    rcases hon.live id' hid' with hold | rfl
    · exact h.live id' hold
    · exact h.taken
  wire p hp hk := by
    rcases hon.wire p hp hk with ⟨p', hp', hk', hid⟩ | hold | hnew
    · rw [← hid]
      exact h.wire p' hp' hk'
    · exact h.live _ hold
    · rw [hnew]
      exact h.taken

/-- A change that queues no notification, and completes none but other requests. -/
theorem Noticing.onward (h : t.Noticing) (hknown : t.Known) (hon : Onward t t')
    (hqueued : t'.queued = t.queued) (hnotified : t'.notified = t.notified)
    (hrest : t'.outstandingNotifies_ ++ t'.pendingNotifies_ =
      t.outstandingNotifies_ ++ t.pendingNotifies_) (hcalls : t'.calls = t.calls)
    (hcompleted : ∀ kind id r, (Owner.op kind id, r) ∈ t'.completed →
      (Owner.op kind id, r) ∈ t.completed ∨ ∃ i ∈ t.issued, i.kind = kind ∧ i.id = id ∧ ¬i.Spray) :
    t'.Noticing where
  split := by
    rw [hqueued, hnotified, hrest]
    exact h.split
  passed n hn id hid := by
    rw [hqueued] at hn
    exact (h.passed n hn id hid).onward hon
  sorted := by
    rw [hqueued]
    exact h.sorted
  calls := by
    rw [hqueued, hcalls]
    exact h.calls
  callsSorted := by
    rw [hcalls]
    exact h.callsSorted
  callsFresh := by
    rw [hcalls]
    exact fun wrId hw => Nat.lt_of_lt_of_le (h.callsFresh wrId hw) hon.nextWrId
  origin n hn id hid := by
    rw [hqueued] at hn
    rcases h.origin n hn id hid with ⟨i, hi, hspray⟩
    exact ⟨i, hon.issued i hi, hspray⟩
  reported kind id r hr := by
    rcases hcompleted kind id r hr with hold | ⟨i, hi, hk, hid, _⟩
    · rcases h.reported kind id r hold with ⟨i, hi, hk, hid⟩
      exact ⟨i, hon.issued i hi, hk, hid⟩
    · exact ⟨i, hon.issued i hi, hk, hid⟩
  last i hi hspray r hr := by
    rw [hnotified]
    have hfound : ∀ i' ∈ t.issued, i'.kind = .put → i'.id = i.id → i ∈ t.issued ∧ i' = i := by
      intro i' hi' hk hid
      rcases hon.issuedNew i hi with hold | hnew
      · exact ⟨hold, hknown.unique i' hi' i hold (hk.trans hspray.1.symm) hid⟩
      · have hlt := hknown.fresh i' hi'
        rw [hk, hid] at hlt
        rw [hspray.1] at hnew
        omega
    rcases hcompleted .put i.id r hr with hold | ⟨i', hi', hk, hid, hnot⟩
    · rcases h.reported .put i.id r hold with ⟨i', hi', hk, hid⟩
      exact h.last i (hfound i' hi' hk hid).1 hspray r hold
    · rw [(hfound i' hi' hk hid).2] at hnot
      exact absurd hspray hnot

/-- A notification joins the queue, which may go on. -/
theorem Noticing.queue (h : t.Noticing) (hon : Onward t t') (n : NotifyInfo)
    (hqueued : t'.queued = t.queued ++ [n]) (hnotified : t'.notified = t.notified)
    (hrest : t'.outstandingNotifies_ ++ t'.pendingNotifies_ =
      t.outstandingNotifies_ ++ t.pendingNotifies_ ++ [n]) (hissued : t'.issued = t.issued)
    (hcompleted : t'.completed = t.completed)
    (hn : n.putId = none ∧ t'.calls = t.calls ++ [n.wrId] ∧ n.wrId = t.nextWrId_ ∧
        t'.nextWrId_ = t.nextWrId_ + 1 ∨
      t'.calls = t.calls ∧ ∃ id, n.putId = some id ∧ t'.Passed id ∧ id ∈ t.liveIds .put ∧
        ∃ i ∈ t.issued, i.Spray ∧ i.id = id) : t'.Noticing where
  split := by
    rw [hqueued, hnotified, hrest, h.split]
    simp
  passed n' hn' id hid := by
    rw [hqueued, List.mem_append, List.mem_singleton] at hn'
    rcases hn' with hn' | rfl
    · exact (h.passed n' hn' id hid).onward hon
    · rcases hn with ⟨hnone, _⟩ | ⟨_, id', hsome, hpassed, _⟩
      · rw [hnone] at hid
        cases hid
      · rw [hsome, Option.some.injEq] at hid
        subst hid
        exact hpassed
  sorted := by
    rw [hqueued, List.filterMap_append]
    rcases hn with ⟨hnone, _⟩ | ⟨_, id, hsome, _, hlive, _⟩
    · simpa [hnone] using h.sorted
    · rw [List.pairwise_append]
      refine ⟨h.sorted, by simp [hsome], ?_⟩
      intro id' hid' id'' hid''
      rcases List.mem_filterMap.mp hid' with ⟨n', hn', hput⟩
      have heq : id'' = id := by simpa [hsome, eq_comm] using hid''
      rw [heq]
      exact (h.passed n' hn' id' hput).live id hlive
  calls := by
    rw [hqueued, List.filter_append, List.map_append, h.calls]
    rcases hn with ⟨hnone, hcalls, _⟩ | ⟨hcalls, id, hsome, _⟩
    · simp [hcalls, hnone]
    · simp [hcalls, hsome]
  callsSorted := by
    rcases hn with ⟨_, hcalls, hwr, _⟩ | ⟨hcalls, _⟩
    · rw [hcalls, List.pairwise_append]
      refine ⟨h.callsSorted, List.pairwise_singleton .., fun w hw w' hw' => ?_⟩
      rw [List.mem_singleton] at hw'
      rw [hw', hwr]
      exact h.callsFresh w hw
    · rw [hcalls]
      exact h.callsSorted
  callsFresh w hw := by
    rcases hn with ⟨_, hcalls, hwr, hnext⟩ | ⟨hcalls, _⟩
    · rw [hcalls, List.mem_append, List.mem_singleton] at hw
      rw [hnext]
      rcases hw with hw | rfl
      · exact Nat.lt_succ_of_lt (h.callsFresh w hw)
      · rw [hwr]
        exact Nat.lt_succ_self _
    · rw [hcalls] at hw
      exact Nat.lt_of_lt_of_le (h.callsFresh w hw) hon.nextWrId
  origin n' hn' id hid := by
    rw [hissued]
    rw [hqueued, List.mem_append, List.mem_singleton] at hn'
    rcases hn' with hn' | rfl
    · exact h.origin n' hn' id hid
    · rcases hn with ⟨hnone, _⟩ | ⟨_, id', hsome, _, _, hissued'⟩
      · rw [hnone] at hid
        cases hid
      · rw [hsome, Option.some.injEq] at hid
        subst hid
        exact hissued'
  reported := by
    rw [hcompleted, hissued]
    exact h.reported
  last := by
    rw [hcompleted, hissued, hnotified]
    exact h.last

/-! ### Each change -/

theorem Noticing.frame (h : t.Noticing) (hknown : t.Known) (hon : Onward t t')
    (hqueued : t'.queued = t.queued) (hnotified : t'.notified = t.notified)
    (hout : t'.outstandingNotifies_ = t.outstandingNotifies_)
    (hpend : t'.pendingNotifies_ = t.pendingNotifies_) (hcalls : t'.calls = t.calls)
    (hcompleted : t'.completed = t.completed) : t'.Noticing := by
  apply h.onward hknown hon hqueued hnotified _ hcalls
  · intro kind id r hr
    rw [hcompleted] at hr
    exact Or.inl hr
  · rw [hout, hpend]

theorem onward_of_issued (hid : t.opId_ .put ≤ t'.opId_ .put)
    (hlive : ∀ id ∈ t'.liveIds .put, id ∈ t.liveIds .put)
    (hwire : ∀ p ∈ t'.wire, p.kind = .put → p ∈ t.wire ∨ p.id ∈ t.liveIds .put)
    (hwr : t.nextWrId_ ≤ t'.nextWrId_) (hissued : t'.issued = t.issued) : Onward t t' where
  opId := hid
  live id hid := Or.inl (hlive id hid)
  wire p hp hk := by
    rcases hwire p hp hk with hold | hold
    · exact Or.inl ⟨p, hold, hk, rfl⟩
    · exact Or.inr (Or.inl hold)
  nextWrId := hwr
  issued i hi := by rwa [hissued]
  issuedNew i hi := by
    rw [hissued] at hi
    exact Or.inl hi

theorem onward_postWqe (hp : (t.ops kind).pending = op :: rest) (i : ℕ) :
    Onward t (t.postWqe kind i op rest) := by
  refine onward_of_issued (Nat.le_refl _) ?_ ?_ (Nat.le_succ _) rfl
  · intro id hid
    rwa [postWqe_liveIds hp] at hid
  · intro p hpw hk
    rw [postWqe_wire, List.mem_append, List.mem_singleton] at hpw
    rcases hpw with hpw | rfl
    · exact Or.inl hpw
    · rw [newWqe_kind] at hk
      subst hk
      right
      rw [liveIds, live_eq hp]
      exact List.mem_map_of_mem (by simp)

theorem onward_pushed (t : CtranIbVirtualConn) (kind : OpKind) (a : OpArgs) (lkeys : List ℕ) :
    Onward t (t.pushed kind a lkeys) where
  opId := le_bump t kind .put
  live id hid := by
    by_cases hk : OpKind.put = kind
    · subst hk
      rw [liveIds, pushed_live_self, List.map_append, List.mem_append, List.map_singleton,
        List.mem_singleton] at hid
      exact hid
    · rw [liveIds, CtranIbVirtualConn.live, pushed_ops_of_ne t a lkeys hk] at hid
      exact Or.inl hid
  wire p hp hk := Or.inl ⟨p, hp, hk, rfl⟩
  nextWrId := Nat.le_refl _
  issued i hi := List.mem_append_left _ hi
  issuedNew i hi := by
    rcases List.mem_append.mp hi with hi | hi
    · exact Or.inl hi
    · rw [List.mem_singleton] at hi
      subst hi
      exact Or.inr (Nat.le_refl _)

theorem onward_fastPosted (t : CtranIbVirtualConn) (kind : OpKind) (a : OpArgs) (lkeys : List ℕ) :
    Onward t (t.fastPosted kind a lkeys) where
  opId := le_bump t kind .put
  live id hid := by
    rw [liveIds, fastPosted_live] at hid
    exact Or.inl hid
  wire p hp hk := by
    rw [fastPosted_wire, List.mem_append, List.mem_singleton] at hp
    rcases hp with hp | rfl
    · exact Or.inl ⟨p, hp, hk, rfl⟩
    · rw [newFast_kind] at hk
      subst hk
      exact Or.inr (Or.inr rfl)
  nextWrId := Nat.le_succ _
  issued i hi := List.mem_append_left _ hi
  issuedNew i hi := by
    rcases List.mem_append.mp hi with hi | hi
    · exact Or.inl hi
    · rw [List.mem_singleton] at hi
      subst hi
      exact Or.inr (Nat.le_refl _)

theorem onward_retireWqe (t : CtranIbVirtualConn) (p : Posted) : Onward t (t.retireWqe p) := by
  refine onward_of_issued (Nat.le_refl _) ?_ ?_ (Nat.le_refl _) rfl
  · intro id hid
    rwa [retireWqe_liveIds] at hid
  · exact fun p' hp' _ => Or.inl (List.mem_of_mem_eraseP hp')

theorem onward_retireFast (t : CtranIbVirtualConn) (p : Posted) (f : FastOpInfo)
    (fs : List FastOpInfo) : Onward t (t.retireFast p f fs) := by
  refine onward_of_issued (Nat.le_refl _) ?_ ?_ (Nat.le_refl _) rfl
  · intro id hid
    rcases retireFast_queues t p f fs .put with ⟨hpend, hout⟩
    rwa [liveIds, CtranIbVirtualConn.live, hpend, hout] at hid
  · exact fun p' hp' _ => Or.inl (List.mem_of_mem_eraseP hp')

theorem nextWrId_finishOp (t : CtranIbVirtualConn) (kind : OpKind) (op : OpInfo) :
    t.nextWrId_ ≤ (t.finishOp kind op).nextWrId_ := by
  unfold finishOp
  split
  · rw [queueNotify, (tryPostImmNotifyMsg_frame _).2.2.2.2.2.1]
    exact Nat.le_succ _
  · exact Nat.le_refl _

theorem onward_burnOne (hout : (t.ops kind).outstanding = op :: rest) :
    Onward t (t.burnOne kind op rest) := by
  have hsame := sameData_finishOp t kind op
  refine onward_of_issued ?_ ?_ ?_ (nextWrId_finishOp t kind op) hsame.issued
  · exact Nat.le_of_eq (congrFun hsame.opId _).symm
  · intro id hid
    rcases List.mem_map.mp hid with ⟨op', hop', rfl⟩
    exact List.mem_map_of_mem (mem_live_of_burnOne hout hop')
  · intro p hp _
    have hwire : (t.burnOne kind op rest).wire = t.wire := hsame.wire
    rw [hwire] at hp
    exact Or.inl hp

theorem passed_burnOne (h : t.Consistent) (hfast : (t.ops .put).fast = [])
    (hout : (t.ops .put).outstanding = op :: rest) (hzero : op.outstandingWqes = 0) : (t.burnOne .put op rest).Passed op.id := by
  have hsame := sameData_finishOp t .put op
  have hself := (burnOne_live hout).1
  have hsorted := h.sorted .put
  rw [liveIds, hself, List.map_cons, List.pairwise_cons] at hsorted
  have hmem : op ∈ t.live .put := by simp [CtranIbVirtualConn.live, hout]
  constructor
  · have hid : (t.burnOne .put op rest).opId_ = t.opId_ := hsame.opId
    rw [hid]
    exact h.fresh .put _ (List.mem_map_of_mem hmem)
  · exact hsorted.1
  · intro p hp hk
    have hwire : (t.burnOne .put op rest).wire = t.wire := hsame.wire
    rw [hwire] at hp
    have hregular : p.fast = false := by
      cases hpf : p.fast with
      | false => rfl
      | true =>
        have hids := h.fasts .put
        rw [hfast, List.map_nil, eq_comm, List.map_eq_nil_iff, List.filter_eq_nil_iff] at hids
        exact absurd (by simp [hpf, hk]) (hids p hp)
    have howned := h.owned p hp hregular
    rw [hk, liveIds, hself, List.map_cons, List.mem_cons] at howned
    rcases howned with hid | hlater
    · have hnone : t.inFlight .put op.id = 0 := by
        rw [← h.counted .put op hmem, hzero]
      rw [inFlight, List.countP_eq_zero] at hnone
      exact absurd (Posted.isOf_iff.mpr ⟨hregular, hk, hid⟩) (hnone p hp)
    · exact hsorted.1 _ hlater

section

variable (h : t.Noticing)
include h

theorem Noticing.burning (hcons : t.Consistent) (hknown : t.Known)
    (hburn : Burning kind t t') : t'.Noticing := by
  cases hburn with
  | one op rest hfast hout hzero hlen =>
    have hon := onward_burnOne hout
    have hmem : op ∈ t.live kind := by simp [CtranIbVirtualConn.live, hout]
    have hentry := hknown.live kind op hmem
    by_cases hspray : op.vcMode = .spray ∧ op.notify
    · have hk : kind = .put := by
        cases kind with
        | put => rfl
        | get =>
          have hget := hknown.gets op hmem
          rw [hspray.2] at hget
          cases hget
      subst hk
      have hpassed := passed_burnOne hcons hfast hout hzero
      have hfinish : t.finishOp .put op = t.queueNotify op.req (some op.id) := by
        rw [finishOp, if_pos hspray]
      have hframe := tryPostImmNotifyMsg_frame (t.enqueueNotify op.req (some op.id))
      rw [← queueNotify, ← hfinish] at hframe
      rcases hframe with ⟨hrest, hnotified, hqueued, hcalls, hcompleted, _, _⟩
      apply h.queue hon ⟨t.nextWrId_, op.req, some op.id⟩ hqueued hnotified _
        (sameData_finishOp t .put op).issued hcompleted
      · exact Or.inr ⟨hcalls, op.id, rfl, hpassed, List.mem_map_of_mem hmem, _, hentry,
          ⟨rfl, rfl, hspray.1, hspray.2⟩, rfl⟩
      · change (t.finishOp .put op).outstandingNotifies_ ++ _ = _
        rw [List.append_assoc]
        exact hrest
    · have hfinish : t.finishOp kind op = t.completeReq (.op kind op.id) op.req := by
        rw [finishOp, if_neg hspray]
      have hburned : t.burnOne kind op rest = (t.completeReq (.op kind op.id) op.req).setOps kind
          fun q => { q with outstanding := rest } := by
        rw [burnOne, hfinish]
      rw [hburned] at hon ⊢
      apply h.onward hknown hon rfl rfl rfl rfl
      intro kind' id r hr
      rcases mem_completeReq hr with hold | howner
      · exact Or.inl hold
      · cases howner
        exact Or.inr ⟨_, hentry, rfl, rfl, fun hs => hspray ⟨hs.2.2.1, hs.2.2.2⟩⟩

theorem Noticing.retireFast (hknown : t.Known)
    (hf : (t.ops p.kind).fast = f :: fs) : (t.retireFast p f fs).Noticing := by
  apply h.onward hknown (onward_retireFast t p f fs) rfl rfl rfl rfl
  intro kind id r hr
  rcases mem_completeReq hr with hold | howner
  · exact Or.inl hold
  · cases howner
    rcases hknown.fast p.kind f (by simp [hf]) with ⟨i, hi, hk, hid, hifast⟩
    refine Or.inr ⟨i, hi, hk, hid, fun hs => ?_⟩
    rw [hs.2.1] at hifast
    cases hifast

theorem Noticing.notify (req : Option ℕ) : (t.notify req).Noticing := by
  have hframe := tryPostImmNotifyMsg_frame ((t.acceptNotify req).enqueueNotify req none)
  rcases hframe with ⟨hrest, hnotified, hqueued, hcalls, hcompleted, hwr, _⟩
  have hsame := sameData_notify t req
  have hon : Onward t (t.notify req) := by
    apply onward_of_issued _ _ _ _ hsame.issued
    · exact Nat.le_of_eq (congrFun hsame.opId _).symm
    · simp only [liveIds, CtranIbVirtualConn.live, hsame.ops]
      exact fun id hid => hid
    · rw [hsame.wire]
      exact fun p hp _ => Or.inl hp
    · rw [CtranIbVirtualConn.notify, queueNotify, hwr]
      exact Nat.le_succ _
  apply h.queue hon ⟨t.nextWrId_, req, none⟩ hqueued hnotified _ hsame.issued hcompleted
  · exact Or.inl ⟨rfl, hcalls, rfl, hwr⟩
  · rw [List.append_assoc]
    exact hrest

theorem Noticing.noticed (hout : t.outstandingNotifies_ = n :: ns) : (t.noticed n ns).Noticing := by
  have hframe := tryPostImmNotifyMsg_frame (completeReq { t with
    notifyWire := t.notifyWire.tail
    outstandingNotifies_ := ns
    notified := t.notified ++ [n] } n.owner n.req)
  rcases hframe with ⟨hrest, hnotified, hqueued, hcalls, hcompleted, hwr, _⟩
  have hn : n ∈ t.queued := by
    rw [h.split, hout]
    simp
  have hsame := sameData_noticed t n ns
  have hold : ∀ kind id r, (Owner.op kind id, r) ∈ (t.noticed n ns).completed →
      (Owner.op kind id, r) ∈ t.completed ∨ n.owner = .op kind id := by
    intro kind id r hr
    rw [CtranIbVirtualConn.noticed, hcompleted] at hr
    exact (mem_completeReq hr).imp_right Eq.symm
  have hpassed : ∀ id, t.Passed id → (t.noticed n ns).Passed id := by
    intro id hid
    constructor
    · rw [hsame.opId]
      exact hid.taken
    · simp only [liveIds, CtranIbVirtualConn.live, hsame.ops]
      exact hid.live
    · rw [hsame.wire]
      exact hid.wire
  exact {
    split := by
      rw [CtranIbVirtualConn.noticed, hqueued, hnotified, hrest]
      change t.queued = t.notified ++ [n] ++ (ns ++ t.pendingNotifies_)
      rw [h.split, hout]
      simp
    passed := by
      intro n' hn' id hid
      rw [CtranIbVirtualConn.noticed, hqueued] at hn'
      exact hpassed id (h.passed n' hn' id hid)
    sorted := by
      rw [CtranIbVirtualConn.noticed, hqueued]
      exact h.sorted
    calls := by
      rw [CtranIbVirtualConn.noticed, hqueued, hcalls]
      exact h.calls
    callsSorted := by
      rw [CtranIbVirtualConn.noticed, hcalls]
      exact h.callsSorted
    callsFresh := by
      rw [CtranIbVirtualConn.noticed, hcalls, hwr]
      exact h.callsFresh
    origin := by
      intro n' hn' id hid
      rw [CtranIbVirtualConn.noticed, hqueued] at hn'
      rw [hsame.issued]
      exact h.origin n' hn' id hid
    reported := by
      intro kind id r hr
      rw [hsame.issued]
      rcases hold kind id r hr with hr | howner
      · exact h.reported kind id r hr
      · rcases NotifyInfo.owner_eq howner with ⟨rfl, hput⟩
        rcases h.origin n hn id hput with ⟨i, hi, hspray, hid⟩
        exact ⟨i, hi, hspray.1, hid⟩
    last := by
      intro i hi hspray r hr
      rw [hsame.issued] at hi
      rw [CtranIbVirtualConn.noticed, hnotified]
      rcases hold .put i.id r hr with hr | howner
      · rcases h.last i hi hspray r hr with ⟨n', hn', hput⟩
        exact ⟨n', List.mem_append_left _ hn', hput⟩
      · exact ⟨n, List.mem_append_right _ (List.mem_singleton.mpr rfl),
          (NotifyInfo.owner_eq howner).2⟩ }

theorem Noticing.change (hsound : t.Sound) (hknown : t.Known)
    (hchange : Change t t') : t'.Noticing := by
  cases hchange with
  | posting _ kind hpost =>
    cases hpost with
    | robin i hi =>
      refine h.frame hknown ?_ rfl rfl rfl rfl rfl rfl
      exact onward_of_issued (Nat.le_refl _) (fun _ hid => hid) (fun _ hp _ => Or.inl hp)
        (Nat.le_refl _) rfl
    | wqe i op rest hi hp => exact h.frame hknown (onward_postWqe hp i) rfl rfl rfl rfl rfl rfl
  | burning _ kind hburn => exact h.burning hsound.toConsistent hknown hburn
  | bump kind =>
    refine h.frame hknown ?_ rfl rfl rfl rfl rfl rfl
    exact onward_of_issued (le_bump t kind .put) (fun _ hid => hid) (fun _ hp _ => Or.inl hp)
      (Nat.le_refl _) rfl
  | push kind a lkeys hget =>
    exact h.frame hknown (onward_pushed t kind a lkeys) rfl rfl rfl rfl rfl rfl
  | fast kind a lkeys hget hvalid =>
    exact h.frame hknown (onward_fastPosted t kind a lkeys) rfl rfl rfl rfl rfl rfl
  | wqe p hp hfast => exact h.frame hknown (onward_retireWqe t p) rfl rfl rfl rfl rfl rfl
  | fastDone p f fs hp hfast hf => exact h.retireFast hknown hf
  | notify req => exact h.notify req
  | noticed n ns hout => exact h.noticed hout

end

/-! ### Runs -/

/-- All of an operation was posted, and all that was posted has completed. -/
def DataDone (t : CtranIbVirtualConn) (i : Issued) : Prop :=
  (∀ op ∈ (t.ops i.kind).pending, op.id ≠ i.id) ∧ t.bytes i.kind i.id = i.len ∧
    ∀ p ∈ t.wire, ¬(p.kind = i.kind ∧ p.id = i.id)

/-- The notifications that went out to the notify QP. -/
def postedNotifies (t : CtranIbVirtualConn) : List NotifyInfo := t.notified ++ t.outstandingNotifies_

/-- What holds of the notifications of spray puts and of the calls of `notify`. -/
structure NotifySafe (t : CtranIbVirtualConn) : Prop where
  afterData : ∀ n ∈ t.postedNotifies, ∀ id, n.putId = some id →
    ∀ i ∈ t.issued, i.kind = .put → i.id ≤ id → t.DataDone i
  forSpray : ∀ n ∈ t.postedNotifies, (∃ i ∈ t.issued, i.Spray ∧ n.putId = some i.id) ∨
    n.putId = none ∧ n.wrId ∈ t.calls
  once : (t.postedNotifies.map NotifyInfo.owner).Nodup
  inOrder : t.postedNotifies <+: t.queued
  onWire : t.notifyWire = t.outstandingNotifies_.map (·.wrId)
  limit : t.notifyWire.length ≤ MAX_SEND_WR
  throttled : t.pendingNotifies_ ≠ [] → t.notifyWire.length = MAX_SEND_WR
  completes : ∀ i ∈ t.issued, i.Spray → ∀ r, (Owner.op .put i.id, r) ∈ t.completed →
    ∃ n ∈ t.notified, n.putId = some i.id

theorem Passed.dataDone (h : t.Passed id) (hknown : t.Known) {i : Issued}
    (hi : i ∈ t.issued) (hk : i.kind = .put) (hle : i.id ≤ id) : t.DataDone i := by
  have hgone : i.id ∉ t.liveIds i.kind := by
    intro hmem
    rw [hk] at hmem
    exact Nat.lt_irrefl _ (Nat.lt_of_lt_of_le (h.live _ hmem) hle)
  refine ⟨?_, hknown.finished i hi hgone, ?_⟩
  · intro op hop hid
    apply hgone
    rw [← hid]
    exact List.mem_map_of_mem (List.mem_append_right _ hop)
  · rintro p hp ⟨hpk, hid⟩
    have hlt := h.wire p hp (hpk.trans hk)
    omega

theorem Noticing.owners_nodup (h : t.Noticing) : (t.queued.map NotifyInfo.owner).Nodup := by
  have hputs : ((t.queued.filterMap (·.putId))).Nodup := h.sorted.imp Nat.ne_of_lt
  have hcalls : ((t.queued.filter (·.putId.isNone)).map (·.wrId)).Nodup := by
    rw [h.calls]
    exact h.callsSorted.imp Nat.ne_of_lt
  generalize t.queued = l at hputs hcalls
  induction l with
  | nil => exact List.nodup_nil
  | cons n l ih =>
    rw [List.map_cons, List.nodup_cons]
    cases hput : n.putId with
    | some id =>
      rw [List.filterMap_cons_some hput, List.nodup_cons] at hputs
      rw [List.filter_cons_of_neg (by simp [hput])] at hcalls
      refine ⟨?_, ih hputs.2 hcalls⟩
      intro hmem
      rcases List.mem_map.mp hmem with ⟨n', hn', howner⟩
      have hn : n.owner = .op .put id := by simp [NotifyInfo.owner, hput]
      rw [hn] at howner
      exact hputs.1 (List.mem_filterMap.mpr ⟨n', hn', (NotifyInfo.owner_eq howner).2⟩)
    | none =>
      rw [List.filterMap_cons_none hput] at hputs
      rw [List.filter_cons_of_pos (by simp [hput]), List.map_cons, List.nodup_cons] at hcalls
      refine ⟨?_, ih hputs hcalls.2⟩
      intro hmem
      rcases List.mem_map.mp hmem with ⟨n', hn', howner⟩
      have hn : n.owner = .notify n.wrId := by simp [NotifyInfo.owner, hput]
      rw [hn] at howner
      apply hcalls.1
      cases hput' : n'.putId with
      | some id' =>
        have hn'' : n'.owner = .op .put id' := by simp [NotifyInfo.owner, hput']
        rw [hn''] at howner
        cases howner
      | none =>
        have hn'' : n'.owner = .notify n'.wrId := by simp [NotifyInfo.owner, hput']
        rw [hn'', Owner.notify.injEq] at howner
        rw [← howner]
        exact List.mem_map_of_mem (List.mem_filter.mpr ⟨hn', by simp [hput']⟩)

/-- The invariant of the runs. -/
structure Safe (t : CtranIbVirtualConn) : Prop where
  sound : t.Sound
  known : t.Known
  throttled : t.Throttled
  noticing : t.Noticing

theorem safe_init (cfg : VcConfig) : Safe { cfg := cfg } where
  sound := sound_init cfg
  known := known_init cfg
  throttled := ⟨Nat.zero_le _, fun hne => absurd rfl hne⟩
  noticing := noticing_init cfg

theorem Safe.changes (h : t.Safe) (hchanges : ReflTransGen Change t t') : t'.Safe := by
  induction hchanges with
  | refl => exact h
  | tail _ hlast ih =>
    exact ⟨ih.sound.change hlast, ih.known.change ih.sound hlast, ih.throttled.change hlast,
      ih.noticing.change ih.sound ih.known hlast⟩

theorem Safe.notifySafe (h : t.Safe) : t.NotifySafe := by
  have hsplit : t.queued = t.postedNotifies ++ t.pendingNotifies_ := by
    rw [h.noticing.split, postedNotifies, List.append_assoc]
  have hsub : ∀ n ∈ t.postedNotifies, n ∈ t.queued := by
    intro n hn
    rw [hsplit]
    exact List.mem_append_left _ hn
  have hlength : t.notifyWire.length = t.outstandingNotifies_.length := by
    rw [h.sound.notices, List.length_map]
  constructor
  · intro n hn id hid i hi hk hle
    exact (h.noticing.passed n (hsub n hn) id hid).dataDone h.known hi hk hle
  · intro n hn
    cases hput : n.putId with
    | some id =>
      rcases h.noticing.origin n (hsub n hn) id hput with ⟨i, hi, hspray, rfl⟩
      exact Or.inl ⟨i, hi, hspray, rfl⟩
    | none =>
      refine Or.inr ⟨rfl, ?_⟩
      rw [← h.noticing.calls]
      exact List.mem_map_of_mem (List.mem_filter.mpr ⟨hsub n hn, by simp [hput]⟩)
  · have hnodup := h.noticing.owners_nodup
    rw [hsplit, List.map_append] at hnodup
    exact (List.nodup_append.mp hnodup).1
  · rw [hsplit]
    exact List.prefix_append ..
  · exact h.sound.notices
  · rw [hlength]
    exact h.throttled.limit
  · rw [hlength]
    exact h.throttled.full
  · exact h.noticing.last

/-- Over every run of puts, gets and calls of `notify`, with the completions in any order that
each QP can give. -/
theorem notifySafe_of_wellFormed (cfg : VcConfig) (ops : List Op)
    (hadm : Admissible step WellFormed [] { cfg := cfg } ops) :
    ∃ t, run step { cfg := cfg } ops = .ok t ∧ t.NotifySafe := by
  have hrun := run_invariant (fun _ t => Safe t) (fun past t op hsafe hop => by
    rcases step_spec hsafe.sound hop with ⟨t', hstep, hchanges⟩
    exact ⟨t', hstep, hsafe.changes hchanges⟩) ops (safe_init cfg) hadm
  rcases hrun with ⟨t, ht, hsafe⟩
  exact ⟨t, ht, hsafe.notifySafe⟩

/-- A put over both QPs and a short one, both with notification, and a call of `notify`. -/
theorem notifySafe_of_wellFormed_twoQps :
    ∃ t, run step { cfg := twoQps }
        [.iput ⟨0, 0, 8192, some [1], [2], true, none, some 1⟩ false,
          .iput ⟨0, 0, 16, some [1], [2], true, none, some 2⟩ false, .notify (some 3), .dataCqe 1,
          .dataCqe 0, .dataCqe 0, .notifyCqe, .notifyCqe, .notifyCqe] = .ok t ∧ t.NotifySafe :=
  notifySafe_of_wellFormed twoQps _ (by decide)

end CtranIbVirtualConn
end TorchComms.CtranIb
