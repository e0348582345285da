import TorchComms.Ibverbx.Accounts
import TorchComms.Ibverbx.Regions

/-! # SENDs and the buffers they fill

Two connected virtual QPs, one that posts SENDs and one that posts buffers. The device writes the
SENDs of data QP 0, in the order of their posts, to the receives of the other QP 0, in the order of
theirs. A SEND longer than its receive breaks the connection.
-/
namespace TorchComms.Ibverbx

open Foundation

/-- `arrivals` are the regions that the device has copied, from and to; `reported` are the virtual
receives that polling has returned. -/
structure SendRecvLink where
  sender : IbvVirtualQp
  receiver : Endpoint
  arrivals : List ((ℕ × ℕ) × (ℕ × ℕ)) := []
  broken : Bool := false
  reported : List IbvWc := []

namespace SendRecvLink

def nextSend (s : SendRecvLink) : Option SendWqe :=
  (s.sender.physicalQps_[0]?).bind fun q => q.sq.posted[s.arrivals.length]?

def nextRecv (s : SendRecvLink) : Option RecvWqe :=
  (s.receiver.vqp.physicalQps_[0]?).bind fun q => q.rq.posted[s.arrivals.length]?

/-- The next SEND arrives, if there is a receive for it. -/
def deliver (s : SendRecvLink) : SendRecvLink :=
  match s.nextSend, s.nextRecv with
  | some x, some y =>
    if s.broken then s
    else if (region x.wr.sg_list).2 ≤ (region y.wr.sg_list).2 then
      { s with arrivals := s.arrivals ++ [(region x.wr.sg_list, region y.wr.sg_list)] }
    else { s with broken := true }
  | _, _ => s

/-- The receives whose completions the receiver has processed. -/
def polled (s : SendRecvLink) : ℕ :=
  ((s.receiver.vqp.physicalQps_[0]?).map fun q => q.rq.completed).getD 0

/-- The sender processes the next completion of its QP 0. -/
def sendCompletion (s : SendRecvLink) : Except Fault SendRecvLink :=
  match s.sender.physicalQps_[0]? with
  | none => .error .outOfRange
  | some q =>
    match q.completeSend with
    | none => .ok s
    | some (x, q') =>
      ((s.sender.setQp (some 0) q').processRequest ⟨.SEND, x.wr.wr_id, q.qp_num, 0⟩).map fun r =>
        { s with sender := r.2 }

/-- The receiver processes the next completion of its QP 0, once the SEND is there. -/
def recvCompletion (s : SendRecvLink) (wc : IbvWc) : Except Fault SendRecvLink :=
  if s.polled < s.arrivals.length then
    (s.receiver.recvCompletion (some 0) false wc).map fun e => { s with receiver := e }
  else .ok s

inductive Op where
  | postSend (sendWr : IbvSendWr)
  | postRecv (recvWr : IbvRecvWr)
  | deliver
  | sendCompletion
  | recvCompletion (wc : IbvWc)
  | pollVirtualCq (numEntries : ℕ)
deriving DecidableEq

def step (s : SendRecvLink) : Op → Except Fault SendRecvLink
  | .postSend sendWr => (s.sender.postSend sendWr).map fun r => { s with sender := r.2 }
  | .postRecv recvWr => (s.receiver.postRecv recvWr).map fun e => { s with receiver := e }
  | .deliver => .ok s.deliver
  | .sendCompletion => s.sendCompletion
  | .recvCompletion wc => s.recvCompletion wc
  | .pollVirtualCq numEntries =>
    (s.receiver.pollVirtualCq s.receiver.recvCq numEntries).map fun r =>
      { s with receiver := r.2, reported := s.reported ++ r.1 }

/-- Two new virtual QPs. -/
def connect (sendQpNums : List ℕ) (sendNotifyQpNum : ℕ) (recvQpNums : List ℕ) (recvNotifyQpNum : ℕ)
    (sendMaxMsgCnt recvMaxMsgCnt maxMsgSize : ℤ) (sendScheme recvScheme : LoadBalancingScheme)
    (sendCq recvCq : ℕ) : SendRecvLink where
  sender := .create sendQpNums sendNotifyQpNum sendMaxMsgCnt maxMsgSize sendScheme
  receiver := .create recvQpNums recvNotifyQpNum recvMaxMsgCnt maxMsgSize recvScheme sendCq recvCq

/-! ### What is delivered -/

def Op.sent : Op → Option IbvSge
  | .postSend sendWr => sendWr.sg_list
  | _ => none

def Op.received : Op → Option (ℕ × IbvSge)
  | .postRecv recvWr => recvWr.sg_list.map fun g => (recvWr.wr_id, g)
  | _ => none

/-- The messages, in the order of the posts. -/
def msgs (past : List Op) : List IbvSge := past.filterMap Op.sent

/-- The buffers, with the ids of their receives. -/
def bufs (past : List Op) : List (ℕ × IbvSge) := past.filterMap Op.received

/-- The bytes written when `p` is copied to the start of `q`: from where and to where. -/
def bytes (p q : ℕ × ℕ) : List (ℕ × ℕ) := (copied p q).map fun b => (u64 b.1, u64 b.2)

def written (l : List ((ℕ × ℕ) × (ℕ × ℕ))) : List (ℕ × ℕ) := l.flatMap fun p => bytes p.1 p.2

/-- Each message copied to the start of its buffer. -/
def expected (past : List Op) : List (ℕ × ℕ) :=
  written (((msgs past).zip (bufs past)).map fun p =>
    ((p.1.addr, p.1.length), (p.2.2.addr, p.2.2.length)))

def que (s : SendRecvLink) : StableDeque VirtualWc :=
  (s.receiver.cqs s.receiver.recvCq).pendingRecvVirtualWcQue_

/-- The `i`-th virtual receive is complete, returned or not. -/
def RecvDone (s : SendRecvLink) (i : ℕ) : Prop :=
  i < s.reported.length ∨ ∃ w ∈ s.que.items[i - s.reported.length]?, w.remainingMsgCnt = 0

/-- The `i`-th message has been written, and the receiver has seen it. -/
def MsgArrived (past : List Op) (s : SendRecvLink) (i : ℕ) : Prop :=
  i < (msgs past).length ∧ (((msgs past).take (i + 1)).map IbvSge.length).sum ≤
    (written (s.arrivals.take s.polled)).length

structure Delivered (past : List Op) (s : SendRecvLink) : Prop where
  landed : written s.arrivals <+: expected past
  intact : s.broken = false
  seen : s.polled ≤ s.arrivals.length
  returned : (s.reported.map IbvWc.wr_id).Perm (((bufs past).map Prod.fst).take s.reported.length)
  queued : wrIds s.que = ((bufs past).map Prod.fst).drop s.reported.length
  completes : ∀ i < (bufs past).length, s.RecvDone i ↔ MsgArrived past s i

/-- SENDs and buffers, none shorter than its message. -/
def WellFormed (past : List Op) (_ : SendRecvLink) : Op → Prop
  | .postSend sendWr => sendWr.opcode = .IBV_WR_SEND ∧ sendWr.num_sge = 1 ∧
      ∃ g ∈ sendWr.sg_list, 1 ≤ g.length ∧ g.length < 2 ^ 32 ∧
        ∀ b ∈ (bufs past)[(msgs past).length]?, g.length ≤ b.2.length
  | .postRecv recvWr => recvWr.num_sge = 1 ∧
      ∃ g ∈ recvWr.sg_list, 1 ≤ g.length ∧ g.length < 2 ^ 32 ∧
        ∀ a ∈ (msgs past)[(bufs past).length]?, a.length ≤ g.length
  | _ => True

/-- Moreover, a message and its buffer are cut into equally many segments, no length exceeds an
`int`, and the ids of the receives on the CQ differ. -/
def Matched (past : List Op) (s : SendRecvLink) (op : Op) : Prop :=
  WellFormed past s op ∧
    match op with
    | .postSend sendWr => ∀ g ∈ sendWr.sg_list, g.length < 2 ^ 31 ∧
        ∀ b ∈ (bufs past)[(msgs past).length]?,
          IbvVirtualQp.segments s.sender.maxMsgSize_ g.length =
            IbvVirtualQp.segments s.sender.maxMsgSize_ b.2.length
    | .postRecv recvWr => recvWr.wr_id ∉ wrIds s.que ∧ ∀ g ∈ recvWr.sg_list, g.length < 2 ^ 31 ∧
        ∀ a ∈ (msgs past)[(bufs past).length]?,
          IbvVirtualQp.segments s.sender.maxMsgSize_ a.length =
            IbvVirtualQp.segments s.sender.maxMsgSize_ g.length
    | _ => True

/-- The sender processes the completion of a SEND that an unsignaled one was posted before. -/
def SenderStops (e : Fault) : Prop :=
  ∃ physicalWrId wrId, physicalWrId ≠ wrId ∧
    e = .error (IbvVirtualQp.mismatchError "physicalSendWrStatus" physicalWrId wrId)

/-! ### Regions of messages and buffers -/

variable {past : List Op} {s : SendRecvLink} {m : ℤ}

def sources (m : ℤ) (as : List IbvSge) : List (ℕ × ℕ) := as.flatMap (regions m)

def targets (m : ℤ) (bs : List (ℕ × IbvSge)) : List (ℕ × ℕ) := bs.flatMap fun b => regions m b.2

/-- The parts of the receives, by id. -/
def parts (m : ℤ) (bs : List (ℕ × IbvSge)) : List ℕ :=
  bs.flatMap fun b => List.replicate (IbvVirtualQp.segments m b.2.length) b.1

/-- A message that its buffer takes segment by segment. -/
structure Fits (m : ℤ) (a b : IbvSge) : Prop where
  pos : 1 ≤ a.length
  le : a.length ≤ b.length
  segments : IbvVirtualQp.segments m a.length = IbvVirtualQp.segments m b.length

variable {a b : IbvSge}

theorem length_regions (m : ℤ) (a : IbvSge) :
    (regions m a).length = IbvVirtualQp.segments m a.length := by
  rw [regions, List.length_map, length_pieces]

section

variable (h : Fits m a b) (hm : 1 ≤ m)
include h hm

theorem Fits.spans :
    Spans m.toNat a.length (IbvVirtualQp.segments m a.length) 0 ∧
      Spans m.toNat b.length (IbvVirtualQp.segments m a.length) 0 := by
  have hone : 1 ≤ m.toNat := by omega
  constructor
  · exact spans_ceil hone h.pos
  · rw [h.segments]
    exact spans_ceil hone (h.pos.trans h.le)

theorem Fits.written :
    written ((regions m a).zip (regions m b)) = bytes (a.addr, a.length) (b.addr, b.length) := by
  rcases h.spans hm with ⟨ha, hb⟩
  have hcopy := copied_pieces ha hb
  have hwrap : ∀ p q : ℕ × ℕ, bytes (place a.addr p) (place b.addr q) =
      (copied p q).map fun x => (u64 (a.addr + x.1), u64 (b.addr + x.2)) := by
    intro p q
    have hadd : ∀ x o t : ℕ, u64 (((u64 (x + o) : ℕ) : ℤ) + t) = u64 (x + ((o + t : ℕ) : ℤ)) := by
      intro x o t
      simp only [u64]
      omega
    simp only [bytes, copied, List.map_map, place]
    apply List.map_congr_left
    intro t _
    simp only [Function.comp_apply, Nat.cast_add]
    have h1 := hadd a.addr p.1 t
    have h2 := hadd b.addr q.1 t
    push_cast at h1 h2
    rw [h1, h2]
  rw [SendRecvLink.written, regions, regions, ← h.segments, List.zip_map, List.flatMap_map]
  simp only [Prod.map_fst, Prod.map_snd, hwrap]
  rw [← List.map_flatMap, hcopy]
  simp only [bytes, copied, List.map_map]
  apply List.map_congr_left
  intro t _
  simp

theorem Fits.segment {p : (ℕ × ℕ) × (ℕ × ℕ)}
    (hp : p ∈ (regions m a).zip (regions m b)) : 1 ≤ p.1.2 ∧ p.1.2 ≤ p.2.2 := by
  rcases h.spans hm with ⟨ha, hb⟩
  rw [regions, regions, ← h.segments, List.zip_map, List.mem_map] at hp
  rcases hp with ⟨q, hq, rfl⟩
  have hone : 1 ≤ m.toNat := by omega
  have hmem : q.1 ∈ pieces m.toNat a.length (IbvVirtualQp.segments m a.length) 0 :=
    (List.of_mem_zip hq).1
  exact ⟨ha.piece_pos hone q.1 hmem, (fits_of_spans ha hb h.le q hq).2⟩

end

section Streams

variable {as : List IbvSge} {bs : List (ℕ × IbvSge)}

theorem zip_streams (h : ∀ p ∈ as.zip bs, Fits m p.1 p.2.2) :
    (sources m as).zip (targets m bs) =
      (as.zip bs).flatMap fun p => (regions m p.1).zip (regions m p.2.2) := by
  apply zip_flatMap
  intro p hp
  rw [length_regions, length_regions]
  exact (h p hp).segments

theorem segment_of_mem (h : ∀ p ∈ as.zip bs, Fits m p.1 p.2.2) (hm : 1 ≤ m)
    {p : (ℕ × ℕ) × (ℕ × ℕ)} (hp : p ∈ (sources m as).zip (targets m bs)) :
    1 ≤ p.1.2 ∧ p.1.2 ≤ p.2.2 := by
  rw [zip_streams h] at hp
  rcases List.mem_flatMap.mp hp with ⟨q, hq, hp⟩
  exact (h q hq).segment hm hp

theorem written_streams (h : ∀ p ∈ as.zip bs, Fits m p.1 p.2.2) (hm : 1 ≤ m) :
    written ((sources m as).zip (targets m bs)) = written ((as.zip bs).map fun p =>
      ((p.1.addr, p.1.length), (p.2.2.addr, p.2.2.length))) := by
  rw [zip_streams h, written, List.flatMap_assoc, written, List.flatMap_map]
  apply List.flatMap_congr
  intro p hp
  exact (h p hp).written hm

theorem length_written (l : List ((ℕ × ℕ) × (ℕ × ℕ))) :
    (written l).length = (l.map fun p => p.1.2).sum := by
  rw [written, List.length_flatMap]
  congr 1
  apply List.map_congr_left
  intro p _
  rw [bytes, List.length_map, length_copied]

/-- The segments of the first `k` buffers. -/
def upTo (m : ℤ) (bs : List (ℕ × IbvSge)) (k : ℕ) : ℕ :=
  ((bs.take k).map fun b => IbvVirtualQp.segments m b.2.length).sum

theorem segments_pos (hm : 1 ≤ m) {n : ℕ} (hn : 1 ≤ n) : 1 ≤ IbvVirtualQp.segments m n :=
  (spans_ceil (by omega) hn).pos

theorem upTo_le_iff (hm : 1 ≤ m) (hbs : ∀ b ∈ bs, 1 ≤ b.2.length) {k l : ℕ} (hk : k ≤ bs.length) :
    upTo m bs k ≤ upTo m bs l ↔ k ≤ l := by
  rw [upTo, upTo, List.map_take, List.map_take]
  apply sum_take_le_iff
  · intro x hx
    rcases List.mem_map.mp hx with ⟨b, hb, rfl⟩
    exact segments_pos hm (hbs b hb)
  · rw [List.length_map]
    exact hk

theorem length_parts (m : ℤ) (bs : List (ℕ × IbvSge)) : (parts m bs).length = upTo m bs bs.length := by
  rw [parts, List.length_flatMap, upTo, List.take_length]
  congr 1
  apply List.map_congr_left
  intro b _
  rw [List.length_replicate]

theorem parts_concat (m : ℤ) (bs : List (ℕ × IbvSge)) (b : ℕ × IbvSge) :
    parts m (bs ++ [b]) =
      parts m bs ++ List.replicate (IbvVirtualQp.segments m b.2.length) b.1 := by
  rw [parts, List.flatMap_append, List.flatMap_singleton, parts]

theorem length_targets (m : ℤ) (bs : List (ℕ × IbvSge)) :
    (targets m bs).length = upTo m bs bs.length := by
  rw [targets, List.length_flatMap, upTo, List.take_length]
  congr 1
  apply List.map_congr_left
  intro b _
  rw [length_regions]

theorem map_fst_tagged (m : ℤ) (bs : List (ℕ × IbvSge)) :
    (bs.flatMap fun b => IbvVirtualQp.tagged b.1 (regions m b.2)).map Prod.fst = parts m bs := by
  rw [List.map_flatMap, parts]
  apply List.flatMap_congr
  intro b _
  rw [IbvVirtualQp.tagged, List.map_map, ← length_regions m b.2]
  exact List.map_const' ..

theorem map_snd_tagged (m : ℤ) (bs : List (ℕ × IbvSge)) :
    (bs.flatMap fun b => IbvVirtualQp.tagged b.1 (regions m b.2)).map Prod.snd = targets m bs := by
  rw [List.map_flatMap, targets]
  apply List.flatMap_congr
  intro b _
  rw [IbvVirtualQp.tagged, List.map_map]
  exact List.map_id _

theorem take_zip (as : List IbvSge) (bs : List (ℕ × IbvSge)) (k : ℕ) :
    (as.zip bs).take k = (as.take k).zip (bs.take k) := List.take_zipWith

variable {k : ℕ}

section

variable (h : ∀ p ∈ as.zip bs, Fits m p.1 p.2.2)
include h

section

variable (hk : k ≤ as.length) (hk' : k ≤ bs.length)
include hk hk'

theorem upTo_eq :
    upTo m bs k =
      (((as.zip bs).take k).map fun p => ((regions m p.1).zip (regions m p.2.2)).length).sum := by
  have hsnd : bs.take k = ((as.zip bs).take k).map Prod.snd := by
    rw [take_zip, List.map_snd_zip]
    rw [List.length_take, List.length_take]
    omega
  rw [upTo, hsnd, List.map_map]
  congr 1
  apply List.map_congr_left
  intro p hp
  have hsame := (h p (List.mem_of_mem_take hp)).segments
  simp only [Function.comp_apply, List.length_zip, length_regions]
  omega

theorem take_streams :
    ((sources m as).zip (targets m bs)).take (upTo m bs k) =
      ((as.take k).zip (bs.take k)).flatMap fun p => (regions m p.1).zip (regions m p.2.2) := by
  rw [zip_streams h, upTo_eq h hk hk', take_flatMap, take_zip]

theorem upTo_le_streams
    : upTo m bs k ≤ ((sources m as).zip (targets m bs)).length := by
  have hlen := congrArg List.length (take_streams h hk hk')
  rw [← take_zip, List.length_flatMap, ← upTo_eq h hk hk', List.length_take] at hlen
  omega

end

theorem length_written_take (hm : 1 ≤ m) (hk : k ≤ as.length) (hk' : k ≤ bs.length) :
    (written (((sources m as).zip (targets m bs)).take (upTo m bs k))).length =
      ((as.take k).map IbvSge.length).sum := by
  have hfit : ∀ p ∈ (as.take k).zip (bs.take k), Fits m p.1 p.2.2 := by
    intro p hp
    rw [← take_zip] at hp
    exact h p (List.mem_of_mem_take hp)
  have hfst : ((as.take k).zip (bs.take k)).map Prod.fst = as.take k := by
    apply List.map_fst_zip
    rw [List.length_take, List.length_take]
    omega
  rw [take_streams h hk hk', ← zip_streams hfit, written_streams hfit hm, length_written,
    List.map_map, ← hfst, List.map_map, hfst]
  rfl

theorem bytes_le_iff (hm : 1 ≤ m) {k n : ℕ} (hk : k ≤ as.length) (hk' : k ≤ bs.length) :
    ((as.take k).map IbvSge.length).sum ≤
        (written (((sources m as).zip (targets m bs)).take n)).length ↔ upTo m bs k ≤ n := by
  rw [← length_written_take h hm hk hk', length_written, length_written, List.map_take,
    List.map_take]
  apply sum_take_le_iff
  · intro x hx
    rcases List.mem_map.mp hx with ⟨p, hp, rfl⟩
    exact (segment_of_mem h hm hp).1
  · rw [List.length_map]
    exact upTo_le_streams h hk hk'

end

end Streams

/-! ### The invariant -/

structure Carrying (m : ℤ) (past : List Op) (s : SendRecvLink) : Prop where
  spreading : s.sender.Spreading
  shipping : s.sender.Shipping m (msgs past)
  receiving : s.receiver.vqp.Receiving
  filling : s.receiver.vqp.Filling m (bufs past) s.polled
  ledger : Ledger (s.receiver.cqs s.receiver.recvCq) (fun _ => 0) s.receiver.vqp.recvLeft
  empty : (s.receiver.cqs s.receiver.recvCq).pendingSendVirtualWcQue_.items = []
  left : ∀ id, s.receiver.vqp.recvLeft id = ((parts m (bufs past)).drop s.polled).count id
  fits : ∀ p ∈ (msgs past).zip (bufs past), Fits m p.1 p.2.2
  messages : ∀ a ∈ msgs past, 1 ≤ a.length
  buffers : ∀ b ∈ bufs past, 1 ≤ b.2.length
  arrived : s.arrivals <+: (sources m (msgs past)).zip (targets m (bufs past))
  intact : s.broken = false
  seen : s.polled ≤ s.arrivals.length
  returned : (s.reported.map IbvWc.wr_id).Perm (((bufs past).map Prod.fst).take s.reported.length)
  queued : wrIds s.que = ((bufs past).map Prod.fst).drop s.reported.length
  finished : upTo m (bufs past) s.reported.length ≤ s.polled

theorem Carrying.size (h : Carrying m past s) : 1 ≤ m := by
  rw [← h.filling.size]
  exact h.receiving.size

variable {α β : Type*} {n : ℕ}

variable {p : α × β}

theorem mem_zip_concat_left {as : List α} {bs : List β} {a : α}
    (hp : p ∈ (as ++ [a]).zip bs) : p ∈ as.zip bs ∨ ∃ b, bs[as.length]? = some b ∧ p = (a, b) := by
  rcases List.mem_iff_getElem?.mp hp with ⟨i, hi⟩
  rw [List.getElem?_zip_eq_some] at hi
  rcases getElem?_concat_cases hi.1 with hold | ⟨rfl, hnew⟩
  · left
    exact List.mem_iff_getElem?.mpr ⟨i, List.getElem?_zip_eq_some.mpr ⟨hold, hi.2⟩⟩
  · right
    exact ⟨p.2, hi.2, by rw [← hnew]⟩

theorem mem_zip_concat_right {as : List α} {bs : List β} {b : β}
    (hp : p ∈ as.zip (bs ++ [b])) : p ∈ as.zip bs ∨ ∃ a, as[bs.length]? = some a ∧ p = (a, b) := by
  rcases List.mem_iff_getElem?.mp hp with ⟨i, hi⟩
  rw [List.getElem?_zip_eq_some] at hi
  rcases getElem?_concat_cases hi.2 with hold | ⟨rfl, hnew⟩
  · left
    exact List.mem_iff_getElem?.mpr ⟨i, List.getElem?_zip_eq_some.mpr ⟨hi.1, hold⟩⟩
  · right
    exact ⟨p.1, hi.1, by rw [← hnew]⟩

theorem msgs_append (past : List Op) (op : Op) :
    msgs (past ++ [op]) = msgs past ++ op.sent.toList := by
  rw [msgs, List.filterMap_append, msgs]
  cases h : op.sent <;> simp [h]

theorem bufs_append (past : List Op) (op : Op) :
    bufs (past ++ [op]) = bufs past ++ op.received.toList := by
  rw [bufs, List.filterMap_append, bufs]
  cases h : op.received <;> simp [h]

theorem Carrying.append (h : Carrying m past s) {op : Op} (hsent : op.sent = none)
    (hrecv : op.received = none) : Carrying m (past ++ [op]) s := by
  have hmsgs : msgs (past ++ [op]) = msgs past := by
    rw [msgs_append, hsent]
    exact List.append_nil _
  have hbufs : bufs (past ++ [op]) = bufs past := by
    rw [bufs_append, hrecv]
    exact List.append_nil _
  constructor
  · exact h.spreading
  · rw [hmsgs]
    exact h.shipping
  · exact h.receiving
  · rw [hbufs]
    exact h.filling
  · exact h.ledger
  · exact h.empty
  · rw [hbufs]
    exact h.left
  · rw [hmsgs, hbufs]
    exact h.fits
  · rw [hmsgs]
    exact h.messages
  · rw [hbufs]
    exact h.buffers
  · rw [hmsgs, hbufs]
    exact h.arrived
  · exact h.intact
  · exact h.seen
  · rw [hbufs]
    exact h.returned
  · rw [hbufs]
    exact h.queued
  · rw [hbufs]
    exact h.finished

/-! ### Posting -/

theorem segmentable (hm : 1 ≤ m) (hmax : m ≤ INT_MAX) (hpos : 1 ≤ n) (hn : n < 2 ^ 31) :
    IbvVirtualQp.Segmentable m n := by
  have hle : IbvVirtualQp.segments m n ≤ n := by
    rw [IbvVirtualQp.segments]
    apply Nat.div_le_of_le_mul
    have hone : 1 ≤ m.toNat := by omega
    have hmul := Nat.mul_le_mul (Nat.le_refl m.toNat) hpos
    rcases Nat.exists_eq_add_of_le hpos with ⟨k, rfl⟩
    have hk : k ≤ m.toNat * k := Nat.le_mul_of_pos_left k hone
    rw [Nat.mul_add, Nat.mul_one]
    omega
  simp only [INT_MAX] at hmax
  refine ⟨hpos, by omega, ?_⟩
  simp only [INT_MAX]
  omega

theorem Carrying.postSend (h : Carrying m past s) (hmax : m ≤ INT_MAX) {wr : IbvSendWr}
    (hop : Matched past s (.postSend wr)) :
    ∃ s', s.step (.postSend wr) = .ok s' ∧ Carrying m (past ++ [.postSend wr]) s' := by
  rcases hop with ⟨⟨hopcode, hnum, g, hg, hpos, _, hle⟩, hcut⟩
  rcases hcut g hg with ⟨hlen, hsame⟩
  rw [h.shipping.size] at hsame
  rw [Option.mem_def] at hg
  have himm : wr.opcode ≠ .IBV_WR_RDMA_WRITE_WITH_IMM := by simp [hopcode]
  have hdiv : IbvVirtualQp.Divisible s.sender.maxMsgSize_ wr := by
    refine ⟨hnum, ⟨g, hg, ?_, fun hc => absurd hc himm⟩, by simp [hopcode]⟩
    rw [h.shipping.size]
    exact segmentable h.size hmax hpos hlen
  rcases h.spreading.postSend (by rw [h.shipping.size]; exact h.size) hdiv with
    ⟨n, extra, v, hpost, _, hn, _, hextra, hspreading, hmoved, _⟩
  have hplain : extra = false := by
    cases extra with
    | false => rfl
    | true => exact absurd (hextra.mp rfl).1 himm
  subst hplain
  have hcount : n = (IbvVirtualQp.segments m g.length : ℕ) := by
    rw [← h.shipping.size]
    simpa using hn g hg
  subst hcount
  have hship : v.Shipping m (msgs past ++ [g]) :=
    hmoved.keeps _ (IbvVirtualQp.Shipping.segmentInvariant h.size _)
      (h.shipping.push h.size hnum hopcode hg hpos hlen)
  have hmsgs : msgs (past ++ [.postSend wr]) = msgs past ++ [g] := by
    rw [msgs_append, Op.sent, hg]
    rfl
  have hbufs : bufs (past ++ [.postSend wr]) = bufs past := by
    rw [bufs_append]
    exact List.append_nil _
  refine ⟨{ s with sender := v }, by simp only [step, hpost, Except.map], ?_⟩
  exact
    { spreading := hspreading
      shipping := by
        rw [hmsgs]
        exact hship
      __ := h
      filling := by
        rw [hbufs]
        exact h.filling
      left := by
        rw [hbufs]
        exact h.left
      fits := by
        rw [hmsgs, hbufs]
        intro p hp
        rcases mem_zip_concat_left hp with hp | ⟨b, hb, rfl⟩
        · exact h.fits p hp
        · exact ⟨hpos, hle b hb, hsame b hb⟩
      messages := by
        rw [hmsgs]
        intro a ha
        rcases List.mem_append.mp ha with ha | ha
        · exact h.messages a ha
        · rw [List.mem_singleton.mp ha]
          exact hpos
      buffers := by
        rw [hbufs]
        exact h.buffers
      arrived := by
        rw [hmsgs, hbufs, sources, List.flatMap_append]
        exact h.arrived.trans (zip_prefix_zip (List.prefix_append _ _) List.prefix_rfl)
      returned := by
        rw [hbufs]
        exact h.returned
      queued := by
        rw [hbufs]
        exact h.queued
      finished := by
        rw [hbufs]
        exact h.finished }

/-- The state after a step of the receiver. -/
def after (s : SendRecvLink) (v : IbvVirtualQp) (cq : IbvVirtualCq) (wcs : List IbvWc) :
    SendRecvLink :=
  { s with
    receiver := { s.receiver with vqp := v }.updateCq s.receiver.recvCq cq
    reported := s.reported ++ wcs }

theorem after_cq (s : SendRecvLink) (v : IbvVirtualQp) (cq : IbvVirtualCq) (wcs : List IbvWc) :
    (s.after v cq wcs).receiver.cqs (s.after v cq wcs).receiver.recvCq = cq :=
  Function.update_self ..

theorem after_que (s : SendRecvLink) (v : IbvVirtualQp) (cq : IbvVirtualCq) (wcs : List IbvWc) :
    (s.after v cq wcs).que = cq.pendingRecvVirtualWcQue_ := by
  rw [que, after_cq]

theorem polled_of_filling {v : IbvVirtualQp} {bs : List (ℕ × IbvSge)}
    (h : v.Filling m bs n) (hdata : v.physicalQps_ ≠ []) (cq : IbvVirtualCq) (wcs : List IbvWc) :
    (s.after v cq wcs).polled = n := by
  rw [polled]
  change ((v.physicalQps_[0]?).map fun q => q.rq.completed).getD 0 = n
  cases hq : v.physicalQps_[0]? with
  | none =>
    rw [List.getElem?_eq_none_iff, Nat.le_zero, List.length_eq_zero_iff] at hq
    exact absurd hq hdata
  | some q => exact h.completed q hq

section

variable (h : Carrying m past s)
include h

theorem Carrying.polled_le_parts : s.polled ≤ (parts m (bufs past)).length := by
  have hlen := h.arrived.length_le
  rw [List.length_zip, length_targets, ← length_parts] at hlen
  have hseen := h.seen
  omega

theorem Carrying.postRecv (hmax : m ≤ INT_MAX) {wr : IbvRecvWr}
    (hop : Matched past s (.postRecv wr)) :
    ∃ s', s.step (.postRecv wr) = .ok s' ∧ Carrying m (past ++ [.postRecv wr]) s' := by
  rcases hop with ⟨⟨hnum, g, hg, hpos, _, hle⟩, hid, hcut⟩
  rcases hcut g hg with ⟨hlen, hsame⟩
  rw [h.shipping.size] at hsame
  rw [Option.mem_def] at hg
  have hseg : IbvVirtualQp.Segmentable m g.length := segmentable h.size hmax hpos hlen
  have hwr : IbvVirtualQp.Receivable s.receiver.vqp.maxMsgSize_ wr := by
    rw [h.filling.size]
    exact Or.inr ⟨hnum, g, hg, hseg⟩
  rcases IbvVirtualQp.postRecv_spec h.receiving hwr with
    ⟨n, v, hpost, hcount, _, hreceiving, hmoved⟩
  have hn : n = (IbvVirtualQp.segments m g.length : ℕ) := by
    rw [IbvVirtualQp.recvSegmentCount, if_pos hnum] at hcount
    simp only [hg, h.filling.size, (IbvVirtualQp.segmentCount_spec h.size hseg).1,
      Except.ok.injEq] at hcount
    exact hcount.symm
  subst hn
  have hcopy : (VirtualRecvWr.ofWr wr (IbvVirtualQp.segments m g.length : ℕ)).wr = wr := by
    simp [VirtualRecvWr.ofWr, hg, hnum]
  have hfill : v.Filling m (bufs past ++ [(wr.wr_id, g)]) s.polled :=
    hmoved.keeps _ (IbvVirtualQp.Filling.partInvariant h.size _ _)
      (h.filling.push h.size hnum hg hpos hlen)
  have hleft : ∀ id, v.recvLeft id = s.receiver.vqp.recvLeft id +
      if wr.wr_id = id then ((IbvVirtualQp.segments m g.length : ℕ) : ℤ) else 0 := by
    intro id
    rw [hmoved.left, IbvVirtualQp.recvLeft_push, hcopy]
    rfl
  have hledger := h.ledger.pushRecv hid (by simp [wrIds, h.empty]) s.receiver.vqp.virtualQpNum_
    (IbvVirtualQp.segments m g.length : ℕ) hleft
  have hbufs : bufs (past ++ [.postRecv wr]) = bufs past ++ [(wr.wr_id, g)] := by
    rw [bufs_append, Op.received, hg]
    rfl
  have hmsgs : msgs (past ++ [.postRecv wr]) = msgs past := by
    rw [msgs_append]
    exact List.append_nil _
  have hshort : s.reported.length ≤ (bufs past).length := by
    have hperm := h.returned.length_eq
    rw [List.length_map, List.length_take, List.length_map] at hperm
    omega
  have hpolled := polled_of_filling (s := s) hfill hreceiving.wired.data
    ((s.receiver.cqs s.receiver.recvCq).processRequest (.RECV s.receiver.vqp.virtualQpNum_
      (IbvVirtualQp.segments m g.length : ℕ) wr)) []
  have hreports : ∀ cq, (s.after v cq []).reported = s.reported := fun _ => List.append_nil _
  refine ⟨s.after v ((s.receiver.cqs s.receiver.recvCq).processRequest (.RECV
    s.receiver.vqp.virtualQpNum_ (IbvVirtualQp.segments m g.length : ℕ) wr)) [], ?_, ?_⟩
  · simp only [step, Endpoint.postRecv, hpost, bind, Except.bind, Except.map, after, List.append_nil]
    rfl
  · exact
      { __ := h
        shipping := by
          rw [hmsgs]
          exact h.shipping
        receiving := hreceiving
        filling := by
          rw [hbufs, hpolled]
          exact hfill
        ledger := by
          rw [after_cq]
          exact hledger
        empty := by
          rw [after_cq]
          exact h.empty
        left := by
          intro id
          change v.recvLeft id = _
          rw [hbufs, hpolled, hleft, h.left, parts_concat,
            List.drop_append_of_le_length h.polled_le_parts, List.count_append, List.count_replicate]
          simp only [beq_iff_eq]
          split <;> simp
        fits := by
          rw [hmsgs, hbufs]
          intro p hp
          rcases mem_zip_concat_right hp with hp | ⟨a, ha, rfl⟩
          · exact h.fits p hp
          · exact ⟨h.messages a (List.mem_of_getElem? ha), hle a ha, hsame a ha⟩
        messages := by
          rw [hmsgs]
          exact h.messages
        buffers := by
          rw [hbufs]
          intro b hb
          rcases List.mem_append.mp hb with hb | hb
          · exact h.buffers b hb
          · rw [List.mem_singleton.mp hb]
            exact hpos
        arrived := by
          rw [hmsgs, hbufs, targets, List.flatMap_append]
          exact h.arrived.trans (zip_prefix_zip List.prefix_rfl (List.prefix_append _ _))
        seen := by
          rw [hpolled]
          exact h.seen
        returned := by
          rw [hbufs, hreports, List.map_append, List.take_append_of_le_length]
          · exact h.returned
          · rw [List.length_map]
            exact hshort
        queued := by
          rw [hbufs, hreports, after_que, List.map_append, List.drop_append_of_le_length]
          · rw [← h.queued]
            simp [IbvVirtualCq.processRequest, wrIds, StableDeque.push_back, que, VirtualWc.fresh,
              VirtualWc.wr_id]
          · rw [List.length_map]
            exact hshort
        finished := by
          rw [hbufs, hreports, hpolled, upTo, List.take_append_of_le_length hshort]
          exact h.finished }

/-! ### Arrivals and completions -/

theorem source_of_nextSend {x : SendWqe} (hx : s.nextSend = some x) :
    (sources m (msgs past))[s.arrivals.length]? = some (region x.wr.sg_list) := by
  rw [nextSend, Option.bind_eq_some_iff] at hx
  rcases hx with ⟨q, hq, hx⟩
  have hlt := (List.getElem?_eq_some_iff.mp hx).1
  rw [sources, ← h.shipping.posted q hq, List.getElem?_append_left (by rwa [List.length_map]),
    List.getElem?_map, hx]
  rfl

theorem target_of_nextRecv {y : RecvWqe} (hy : s.nextRecv = some y) :
    (targets m (bufs past))[s.arrivals.length]? = some (region y.wr.sg_list) := by
  rw [nextRecv, Option.bind_eq_some_iff] at hy
  rcases hy with ⟨q, hq, hy⟩
  have hlt := (List.getElem?_eq_some_iff.mp hy).1
  rw [← map_snd_tagged, ← h.filling.posted q hq, List.map_append, List.map_map,
    List.getElem?_append_left (by rwa [List.length_map]), List.getElem?_map, hy]
  rfl

theorem Carrying.deliver : Carrying m past s.deliver := by
  rw [SendRecvLink.deliver]
  split
  · rename_i x y hx hy
    have hpair : ((sources m (msgs past)).zip (targets m (bufs past)))[s.arrivals.length]? =
        some (region x.wr.sg_list, region y.wr.sg_list) :=
      List.getElem?_zip_eq_some.mpr ⟨source_of_nextSend h hx, target_of_nextRecv h hy⟩
    have hfit := segment_of_mem h.fits h.size (List.mem_of_getElem? hpair)
    rw [if_neg (by simp [h.intact]), if_pos hfit.2]
    exact { h with
      arrived := prefix_concat h.arrived hpair
      seen := by
        rw [List.length_append]
        exact Nat.le_add_right_of_le h.seen }
  · exact h

theorem Carrying.sendCompletion :
    (∃ s', s.step .sendCompletion = .ok s' ∧ Carrying m (past ++ [.sendCompletion]) s') ∨
      ∃ e, s.step .sendCompletion = .error e ∧ SenderStops e := by
  have hlt : 0 < s.sender.physicalQps_.length := List.length_pos_iff.mpr h.spreading.wired.data
  have hq := List.getElem?_eq_getElem hlt
  generalize s.sender.physicalQps_[0] = q at hq
  have hqp : s.sender.qp? (some 0) = some q := hq
  cases hcomp : q.completeSend with
  | none =>
    left
    refine ⟨s, ?_, h.append rfl rfl⟩
    simp only [step, SendRecvLink.sendCompletion, hq, hcomp]
  | some r =>
    rw [IbvQp.completeSend, Option.map_eq_some_iff] at hcomp
    rcases hcomp with ⟨⟨x, sq⟩, hnext, rfl⟩
    have hcomp : q.completeSend = some (x, { q with sq := sq }) := by
      rw [IbvQp.completeSend, hnext]
      rfl
    cases hout : q.sq.outstanding with
    | nil =>
      rw [WorkQueue.completeNext_of_empty _ hout] at hnext
      cases hnext
    | cons y ys =>
      by_cases hsig : y.wr.signaled
      · left
        rcases h.spreading.completeSend hqp hout hsig with
          ⟨sq', v, hcomp', hposted, _, hproc, hspreading, hmoved, _, _⟩
        have hship : v.Shipping m (msgs past) :=
          hmoved.keeps _ (IbvVirtualQp.Shipping.segmentInvariant h.size _)
            (h.shipping.retire hq hposted _)
        refine ⟨{ s with sender := v }, ?_, Carrying.append ?_ rfl rfl⟩
        · simp only [step, SendRecvLink.sendCompletion, hq, hcomp', hproc, Except.map]
        · exact { h with
            spreading := hspreading
            shipping := hship }
      · right
        have hxsig := WorkQueue.signaled_of_completeNext hnext
        have hxmem : x ∈ q.sq.posted := WorkQueue.mem_of_completeNext hnext
        have hymem : y ∈ q.sq.posted := by
          apply List.mem_of_mem_drop (i := q.sq.completed)
          change y ∈ q.sq.outstanding
          rw [hout]
          exact List.mem_cons_self
        have hne : y.wr.wr_id ≠ x.wr.wr_id := by
          intro heq
          have hsame := List.inj_on_of_nodup_map (h.shipping.wrIds q hq).1 hymem hxmem heq
          rw [hsame] at hsig
          exact hsig hxsig
        have hmirror := h.spreading.mirror q (IbvVirtualQp.mem_qps hqp)
        rw [hout, List.map_cons] at hmirror
        have hwired : (s.sender.setQp (some 0) { q with sq := sq }).Wired :=
          h.spreading.wired.of_eq rfl (IbvVirtualQp.map_setQp _ hqp rfl)
        have hget : (s.sender.setQp (some 0) { q with sq := sq }).qp? (some 0) =
            some { q with sq := sq } := by
          rw [IbvVirtualQp.qp?_setQp hqp, if_pos rfl]
        have hidx := hwired.index (some 0) _ hget
        have hproc := IbvVirtualQp.processRequest_send_mismatch hidx hget hmirror
          (show y.status.physicalWrId ≠ x.wr.wr_id from hne)
        refine ⟨_, ?_, y.wr.wr_id, x.wr.wr_id, hne, rfl⟩
        simp only [step, SendRecvLink.sendCompletion, hq, hcomp, hproc, Except.map]
        rfl

end

theorem drop_parts {bs : List ℕ} {n x : ℕ} (h : bs[n]? = some x) (id : ℕ) :
    ((bs.drop n).count id : ℤ) = (bs.drop (n + 1)).count id + if x = id then 1 else 0 := by
  rcases List.getElem?_eq_some_iff.mp h with ⟨hlt, hx⟩
  rw [List.drop_eq_getElem_cons hlt, hx, List.count_cons]
  simp only [beq_iff_eq]
  split <;> simp

theorem Carrying.recvCompletion (h : Carrying m past s) (wc : IbvWc) :
    ∃ s', s.step (.recvCompletion wc) = .ok s' ∧ Carrying m (past ++ [.recvCompletion wc]) s' := by
  by_cases hready : s.polled < s.arrivals.length
  · have hlt : 0 < s.receiver.vqp.physicalQps_.length :=
      List.length_pos_iff.mpr h.receiving.wired.data
    have hq := List.getElem?_eq_getElem hlt
    generalize s.receiver.vqp.physicalQps_[0] = q at hq
    have hqp : s.receiver.vqp.qp? (some 0) = some q := hq
    have hdone := h.filling.completed q hq
    cases hout : q.rq.outstanding with
    | nil =>
      refine ⟨s, ?_, h.append rfl rfl⟩
      simp only [step, SendRecvLink.recvCompletion, hready, if_true,
        Endpoint.recvCompletion_of_empty hqp hout, Except.map]
    | cons x xs =>
      generalize hpwc : ({ wc with
        wr_id := x.wr.wr_id
        qp_num := q.qp_num
        opcode := if false = true then .IBV_WC_RECV_RDMA_WITH_IMM else .IBV_WC_RECV } : IbvWc) = pwc
      rcases IbvVirtualQp.completeRecv_spec h.receiving hqp hout
        (if pwc.opcode = .IBV_WC_RECV_RDMA_WITH_IMM then pwc.imm_data else 0) with
        ⟨rq, v, hcomp, hposted, hcompleted, hproc, hreceiving, hmoved, hleft⟩
      have hpart : (parts m (bufs past))[s.polled]? = some x.virtualWrId := by
        have hx : q.rq.posted[s.polled]? = some x := by
          have hhead := congrArg List.head? hout
          rw [WorkQueue.outstanding, List.head?_drop, List.head?_cons, hdone] at hhead
          exact hhead
        have hlt := (List.getElem?_eq_some_iff.mp hx).1
        rw [← map_fst_tagged, ← h.filling.posted q hq, List.map_append, List.map_map,
          List.getElem?_append_left (by rwa [List.length_map]), List.getElem?_map, hx]
        rfl
      have hcount := drop_parts hpart
      have hpos : s.receiver.vqp.recvLeft x.virtualWrId ≠ 0 := by
        rw [h.left, hcount, if_pos rfl]
        omega
      rcases h.ledger.chargeRecv hpos pwc hleft with
        ⟨w, cq, hcharge, hledger, hw, hid, hitems, hitems'⟩
      have heq := Endpoint.recvCompletion_eq hqp hcomp hpwc.symm hproc hcharge
      have hfill : v.Filling m (bufs past) (s.polled + 1) :=
        hmoved.keeps _ (IbvVirtualQp.Filling.partInvariant h.size _ _)
          (h.filling.retire hq hposted hcompleted _)
      have hpolled := polled_of_filling (s := s) hfill hreceiving.wired.data cq []
      have hreports : (s.after v cq []).reported = s.reported := List.append_nil _
      refine ⟨s.after v cq [], ?_, Carrying.append ?_ rfl rfl⟩
      · simp only [step, SendRecvLink.recvCompletion, hready, if_true, heq, Except.map, after,
          List.append_nil]
      · exact { h with
          receiving := hreceiving
          filling := by
            rw [hpolled]
            exact hfill
          ledger := by
            rw [after_cq]
            exact hledger
          empty := by
            rw [after_cq, hitems']
            exact h.empty
          left := by
            intro id
            change v.recvLeft id = _
            rw [hpolled, hleft, h.left, hcount]
            omega
          seen := by
            rw [hpolled]
            exact hready
          returned := by
            rw [hreports]
            exact h.returned
          queued := by
            rw [hreports, after_que, ← h.queued, wrIds, hitems, List.map_map]
            apply List.map_congr_left
            intro u _
            simp only [Function.comp_apply]
            split <;> rfl
          finished := by
            rw [hreports, hpolled]
            exact Nat.le_succ_of_le h.finished }
  · refine ⟨s, ?_, h.append rfl rfl⟩
    simp only [step, SendRecvLink.recvCompletion, hready, if_false]

/-! ### Complete receives -/

theorem upTo_add (m : ℤ) (bs : List (ℕ × IbvSge)) (k l : ℕ) :
    upTo m bs (k + l) = upTo m bs k + upTo m (bs.drop k) l := by
  rw [upTo, List.take_add, List.map_append, List.sum_append, upTo, upTo]

theorem parts_eq (m : ℤ) (bs : List (ℕ × IbvSge)) :
    parts m bs = (bs.map fun b => (b.1, IbvVirtualQp.segments m b.2.length)).flatMap fun p =>
      List.replicate p.2 p.1 := by
  rw [parts, List.flatMap_map]

section

variable (h : Carrying m past s)
include h

theorem Carrying.recvLeft_nonneg (id : ℕ) : 0 ≤ s.receiver.vqp.recvLeft id := by
  rw [h.left]
  exact Int.natCast_nonneg _

theorem Carrying.left_eq_zero_iff {k : ℕ} {w : VirtualWc} (hw : s.que.items[k]? = some w) :
    s.receiver.vqp.recvLeft w.wr_id = 0 ↔
      upTo m (bufs past) (s.reported.length + k + 1) ≤ s.polled := by
  have hid : (((bufs past).drop s.reported.length).map fun b =>
      (b.1, IbvVirtualQp.segments m b.2.length))[k]?.map Prod.fst = some w.wr_id := by
    have hwid : (wrIds s.que)[k]? = some w.wr_id := by
      rw [wrIds, List.getElem?_map, hw]
      rfl
    rw [h.queued, ← List.map_drop, List.getElem?_map] at hwid
    rw [List.getElem?_map, Option.map_map]
    exact hwid
  rcases Option.map_eq_some_iff.mp hid with ⟨p, hp, hpid⟩
  have hnodup : ((((bufs past).drop s.reported.length).map fun b =>
      (b.1, IbvVirtualQp.segments m b.2.length)).map Prod.fst).Nodup := by
    have hids := h.ledger.recv.nodup
    change (wrIds s.que).Nodup at hids
    rw [h.queued, ← List.map_drop] at hids
    rw [List.map_map]
    exact hids
  have hpos : ∀ p ∈ ((bufs past).drop s.reported.length).map fun b =>
      (b.1, IbvVirtualQp.segments m b.2.length), 1 ≤ p.2 := by
    intro p hp
    rcases List.mem_map.mp hp with ⟨b, hb, rfl⟩
    exact segments_pos h.size (h.buffers b (List.mem_of_mem_drop hb))
  have hcount := count_drop_parts (d := s.polled - upTo m (bufs past) s.reported.length)
    hnodup hpos hp
  rw [← parts_eq, hpid] at hcount
  have hsplit : parts m (bufs past) = parts m ((bufs past).take s.reported.length) ++
      parts m ((bufs past).drop s.reported.length) := by
    rw [parts, parts, parts, ← List.flatMap_append, List.take_append_drop]
  have hfirst : (parts m ((bufs past).take s.reported.length)).length =
      upTo m (bufs past) s.reported.length := by
    rw [length_parts, upTo, List.take_length, upTo]
  have hdone : (parts m ((bufs past).take s.reported.length)).length ≤ s.polled := by
    rw [hfirst]
    exact h.finished
  have hsum : upTo m (bufs past) (s.reported.length + k + 1) =
      upTo m (bufs past) s.reported.length +
        (((((bufs past).drop s.reported.length).map fun b =>
          (b.1, IbvVirtualQp.segments m b.2.length)).take (k + 1)).map Prod.snd).sum := by
    rw [Nat.add_assoc, upTo_add, upTo, ← List.map_take, List.map_map]
    rfl
  have hfinished := h.finished
  rw [h.left, hsplit, List.drop_append, List.drop_eq_nil_of_le hdone, List.nil_append, hfirst,
    Int.natCast_eq_zero, hcount, hsum]
  omega

theorem Carrying.pollVirtualCq (numEntries : ℕ) :
    ∃ s', s.step (.pollVirtualCq numEntries) = .ok s' ∧
      Carrying m (past ++ [.pollVirtualCq numEntries]) s' := by
  rcases h.ledger.poll (fun _ => Int.le_refl 0) h.recvLeft_nonneg numEntries with
    ⟨wcs, cq, ps, pr, hpoll, hpolled, _⟩
  have hsends := hpolled.sends
  rw [h.empty] at hsends
  rcases List.append_eq_nil_iff.mp hsends.symm with ⟨rfl, hempty⟩
  have hrecvs : s.que.items = pr ++ cq.pendingRecvVirtualWcQue_.items := hpolled.recvs
  have hwcs : wcs.Perm (pr.map VirtualWc.wc) := by
    have hperm := hpolled.wcs
    rwa [List.nil_append] at hperm
  have hlen : wcs.length = pr.length := by
    rw [hwcs.length_eq, List.length_map]
  have hids : ((bufs past).map Prod.fst).drop s.reported.length =
      pr.map VirtualWc.wr_id ++ wrIds cq.pendingRecvVirtualWcQue_ := by
    rw [← h.queued, wrIds, hrecvs, List.map_append]
    rfl
  have hpolls := polled_of_filling (s := s) h.filling h.receiving.wired.data cq wcs
  refine ⟨s.after s.receiver.vqp cq wcs, ?_, Carrying.append ?_ rfl rfl⟩
  · simp only [step, Endpoint.pollVirtualCq, hpoll, bind, Except.bind, Except.map, after]
  · exact { h with
      filling := by
        rw [hpolls]
        exact h.filling
      ledger := by
        rw [after_cq]
        exact hpolled.ledger
      empty := by
        rw [after_cq]
        exact hempty
      left := by
        rw [hpolls]
        exact h.left
      seen := by
        rw [hpolls]
        exact h.seen
      returned := by
        change ((s.reported ++ wcs).map IbvWc.wr_id).Perm
          (((bufs past).map Prod.fst).take (s.reported ++ wcs).length)
        have hnew : (wcs.map IbvWc.wr_id).Perm (pr.map VirtualWc.wr_id) := by
          have hmap := hwcs.map IbvWc.wr_id
          rwa [List.map_map] at hmap
        have htake : (((bufs past).map Prod.fst).drop s.reported.length).take pr.length =
            pr.map VirtualWc.wr_id := by
          rw [hids, List.take_left' (List.length_map _)]
        rw [List.map_append, List.length_append, List.take_add, hlen, htake]
        exact h.returned.append hnew
      queued := by
        change wrIds _ = ((bufs past).map Prod.fst).drop (s.reported ++ wcs).length
        rw [after_que, List.length_append, hlen, ← List.drop_drop, hids,
          List.drop_left' (List.length_map _)]
      finished := by
        change upTo m (bufs past) (s.reported ++ wcs).length ≤ _
        rw [hpolls, List.length_append, hlen]
        rcases List.eq_nil_or_concat pr with hnil | ⟨init, w, hlast⟩
        · rw [hnil]
          exact h.finished
        · rw [List.concat_eq_append] at hlast
          have hget : s.que.items[init.length]? = some w := by
            rw [hrecvs, hlast]
            simp
          have hzero := hpolled.recvsDone w (by simp [hlast])
          rw [hlast, List.length_append, List.length_singleton, ← Nat.add_assoc]
          exact (h.left_eq_zero_iff hget).mp hzero }

/-! ### Runs -/

theorem Carrying.step (hmax : m ≤ INT_MAX) {op : Op} (hop : Matched past s op) :
    (∃ s', s.step op = .ok s' ∧ Carrying m (past ++ [op]) s') ∨
      ∃ e, s.step op = .error e ∧ SenderStops e := by
  cases op with
  | postSend wr => exact Or.inl (h.postSend hmax hop)
  | postRecv wr => exact Or.inl (h.postRecv hmax hop)
  | deliver => exact Or.inl ⟨s.deliver, rfl, h.deliver.append rfl rfl⟩
  | sendCompletion => exact h.sendCompletion
  | recvCompletion wc => exact Or.inl (h.recvCompletion wc)
  | pollVirtualCq n => exact Or.inl (h.pollVirtualCq n)

theorem Carrying.recvDone_iff {i : ℕ} (hi : i < (bufs past).length) :
    s.RecvDone i ↔ upTo m (bufs past) (i + 1) ≤ s.polled := by
  rcases Nat.lt_or_ge i s.reported.length with hlt | hge
  · have hle : upTo m (bufs past) (i + 1) ≤ upTo m (bufs past) s.reported.length :=
      (upTo_le_iff h.size h.buffers hi).mpr hlt
    exact iff_of_true (Or.inl hlt) (hle.trans h.finished)
  · have hlen : s.que.items.length = (bufs past).length - s.reported.length := by
      have hids := congrArg List.length h.queued
      rwa [wrIds, List.length_map, List.length_drop, List.length_map] at hids
    have hget := List.getElem?_eq_getElem (l := s.que.items) (i := i - s.reported.length) (by omega)
    generalize s.que.items[i - s.reported.length] = w at hget
    have hexact := h.ledger.recv.exact w (List.mem_of_getElem? hget)
    have hiff := h.left_eq_zero_iff hget
    rw [Nat.add_sub_cancel' hge, ← hexact] at hiff
    rw [← hiff, RecvDone, hget]
    simp [Nat.not_lt_of_le hge]

theorem Carrying.delivered : Delivered past s where
  landed := by
    rw [expected, ← written_streams h.fits h.size]
    rcases h.arrived with ⟨t, ht⟩
    rw [← ht, written, written, List.flatMap_append]
    exact List.prefix_append _ _
  __ := h
  completes i hi := by
    have htake : s.arrivals.take s.polled =
        ((sources m (msgs past)).zip (targets m (bufs past))).take s.polled := by
      rcases h.arrived with ⟨t, ht⟩
      rw [← ht, List.take_append_of_le_length h.seen]
    rw [h.recvDone_iff hi, MsgArrived, htake]
    rcases Nat.lt_or_ge i (msgs past).length with hlt | hge
    · rw [bytes_le_iff h.fits h.size hlt hi]
      exact (and_iff_right hlt).symm
    · apply iff_of_false _ fun hc => Nat.not_lt_of_le hge hc.1
      -- the segments that arrived are those of messages, and so of earlier buffers
      have hsegs : ((sources m (msgs past)).zip (targets m (bufs past))).length =
          upTo m (bufs past) (msgs past).length := by
        have hall := upTo_eq h.fits (Nat.le_refl _) (by omega : (msgs past).length ≤ _)
        rw [List.take_of_length_le (by rw [List.length_zip]; omega)] at hall
        rw [hall, zip_streams h.fits, List.length_flatMap]
      have hlen := h.arrived.length_le
      have hseen := h.seen
      rw [hsegs] at hlen
      intro hc
      have hle := (upTo_le_iff h.size h.buffers hi).mp (hc.trans (hseen.trans hlen))
      omega

end

section Connect

variable {sendQpNums recvQpNums : List ℕ} {sendNotifyQpNum recvNotifyQpNum : ℕ}

theorem carrying_connect (hsend : sendQpNums ≠ []) (hsend' : (sendNotifyQpNum :: sendQpNums).Nodup)
    (hrecv : recvQpNums ≠ []) (hrecv' : (recvNotifyQpNum :: recvQpNums).Nodup)
    (sendMaxMsgCnt recvMaxMsgCnt : ℤ) (hm : 1 ≤ m) (sendScheme : LoadBalancingScheme)
    (sendCq recvCq : ℕ) :
    Carrying m [] (connect sendQpNums sendNotifyQpNum recvQpNums recvNotifyQpNum sendMaxMsgCnt
      recvMaxMsgCnt m sendScheme .SPRAY sendCq recvCq) := by
  have hfresh : ∀ q, (IbvVirtualQp.create recvQpNums recvNotifyQpNum recvMaxMsgCnt m
      .SPRAY).physicalQps_[0]? = some q → ∃ n, q = { qp_num := n } := fun q hq =>
    IbvVirtualQp.fresh_of_mem_create (IbvVirtualQp.mem_qps (k := some 0) hq)
  have hzero : (connect sendQpNums sendNotifyQpNum recvQpNums recvNotifyQpNum sendMaxMsgCnt
      recvMaxMsgCnt m sendScheme .SPRAY sendCq recvCq).polled = 0 := by
    rw [polled]
    change (((IbvVirtualQp.create recvQpNums recvNotifyQpNum recvMaxMsgCnt m
      .SPRAY).physicalQps_[0]?).map fun q => q.rq.completed).getD 0 = 0
    cases hq : (IbvVirtualQp.create recvQpNums recvNotifyQpNum recvMaxMsgCnt m
      .SPRAY).physicalQps_[0]? with
    | none => rfl
    | some q =>
      rcases hfresh q hq with ⟨n, rfl⟩
      rfl
  exact
    { spreading := (IbvVirtualQp.sending_create hsend hsend' sendMaxMsgCnt m sendScheme).toSpreading
      shipping := by
        have hnew : ∀ q, (IbvVirtualQp.create sendQpNums sendNotifyQpNum sendMaxMsgCnt m
            sendScheme).physicalQps_[0]? = some q → ∃ n, q = { qp_num := n } := fun q hq =>
          IbvVirtualQp.fresh_of_mem_create (IbvVirtualQp.mem_qps (k := some 0) hq)
        refine ⟨rfl, (fun _ hw => by cases hw), ?_, ?_⟩
        · intro q hq
          rcases hnew q hq with ⟨n, rfl⟩
          rfl
        · intro q hq
          rcases hnew q hq with ⟨n, rfl⟩
          exact ⟨List.nodup_nil, fun _ hx => by cases hx⟩
      receiving := IbvVirtualQp.receiving_create hrecv hrecv' recvMaxMsgCnt hm
      filling := by
        rw [hzero]
        refine ⟨rfl, (fun _ hw => by cases hw), ?_, ?_⟩
        · intro q hq
          rcases hfresh q hq with ⟨n, rfl⟩
          rfl
        · intro q hq
          rcases hfresh q hq with ⟨n, rfl⟩
          rfl
      ledger := Ledger.empty.of_left (fun _ => rfl) fun id =>
        IbvVirtualQp.recvLeft_create recvQpNums recvNotifyQpNum recvMaxMsgCnt m .SPRAY id
      empty := rfl
      left := by
        intro id
        rw [hzero]
        exact IbvVirtualQp.recvLeft_create recvQpNums recvNotifyQpNum recvMaxMsgCnt m .SPRAY id
      fits := fun _ hp => by cases hp
      messages := fun _ hp => by cases hp
      buffers := fun _ hp => by cases hp
      arrived := List.prefix_rfl
      intact := rfl
      seen := by
        rw [hzero]
        exact Nat.zero_le _
      returned := List.Perm.refl _
      queued := rfl
      finished := Nat.zero_le _ }

/-- Messages land in their buffers as long as each is cut into as many segments as its buffer. -/
theorem delivered_of_matched (hsend : sendQpNums ≠ [])
    (hsend' : (sendNotifyQpNum :: sendQpNums).Nodup) (hrecv : recvQpNums ≠ [])
    (hrecv' : (recvNotifyQpNum :: recvQpNums).Nodup) (sendMaxMsgCnt recvMaxMsgCnt : ℤ) (hm : 1 ≤ m)
    (hmax : m ≤ INT_MAX) (sendScheme : LoadBalancingScheme) (sendCq recvCq : ℕ) (ops : List Op)
    (hadm : Admissible SendRecvLink.step Matched [] (connect sendQpNums sendNotifyQpNum recvQpNums
      recvNotifyQpNum sendMaxMsgCnt recvMaxMsgCnt m sendScheme .SPRAY sendCq recvCq) ops) :
    (∃ s, run SendRecvLink.step (connect sendQpNums sendNotifyQpNum recvQpNums recvNotifyQpNum
      sendMaxMsgCnt recvMaxMsgCnt m sendScheme .SPRAY sendCq recvCq) ops = .ok s ∧
        Delivered ops s) ∨
      ∃ e, run SendRecvLink.step (connect sendQpNums sendNotifyQpNum recvQpNums recvNotifyQpNum
        sendMaxMsgCnt recvMaxMsgCnt m sendScheme .SPRAY sendCq recvCq) ops = .error e ∧
          SenderStops e := by
  have hstart := carrying_connect hsend hsend' hrecv hrecv' sendMaxMsgCnt recvMaxMsgCnt hm sendScheme
    sendCq recvCq
  rcases run_invariant_or_stops (Carrying m) SenderStops (fun _ _ _ h hop => h.step hmax hop) ops
    hstart hadm with ⟨s, hs, h⟩ | hstops
  · exact Or.inl ⟨s, hs, h.delivered⟩
  · exact Or.inr hstops

end Connect

instance (past : List Op) (s : SendRecvLink) (op : Op) : Decidable (WellFormed past s op) := by
  cases op <;> unfold WellFormed <;> infer_instance

instance (past : List Op) (s : SendRecvLink) (op : Op) : Decidable (Matched past s op) := by
  cases op <;> unfold Matched <;> infer_instance

/-- Two messages of two segments each, the second buffer posted late. -/
theorem delivered_of_matched_two :
    (∃ s, run SendRecvLink.step (connect [10, 11] 12 [20] 21 4 (-1) 2 .DQPLB .SPRAY 0 0)
        [.postRecv ⟨1, some ⟨1000, 4, 0⟩, 1⟩,
          .postSend ⟨1, some ⟨10, 3, 0⟩, 1, .IBV_WR_SEND, IBV_SEND_SIGNALED, 0, 0, 0⟩,
          .postSend ⟨2, some ⟨20, 4, 0⟩, 1, .IBV_WR_SEND, 0, 0, 0, 0⟩, .deliver, .deliver, .deliver,
          .recvCompletion {}, .postRecv ⟨2, some ⟨2000, 4, 0⟩, 1⟩, .deliver, .recvCompletion {},
          .pollVirtualCq 4, .sendCompletion, .deliver, .recvCompletion {}] = .ok s ∧
      Delivered [.postRecv ⟨1, some ⟨1000, 4, 0⟩, 1⟩,
          .postSend ⟨1, some ⟨10, 3, 0⟩, 1, .IBV_WR_SEND, IBV_SEND_SIGNALED, 0, 0, 0⟩,
          .postSend ⟨2, some ⟨20, 4, 0⟩, 1, .IBV_WR_SEND, 0, 0, 0, 0⟩, .deliver, .deliver, .deliver,
          .recvCompletion {}, .postRecv ⟨2, some ⟨2000, 4, 0⟩, 1⟩, .deliver, .recvCompletion {},
          .pollVirtualCq 4, .sendCompletion, .deliver, .recvCompletion {}] s) ∨
      ∃ e, run SendRecvLink.step (connect [10, 11] 12 [20] 21 4 (-1) 2 .DQPLB .SPRAY 0 0)
        [.postRecv ⟨1, some ⟨1000, 4, 0⟩, 1⟩,
          .postSend ⟨1, some ⟨10, 3, 0⟩, 1, .IBV_WR_SEND, IBV_SEND_SIGNALED, 0, 0, 0⟩,
          .postSend ⟨2, some ⟨20, 4, 0⟩, 1, .IBV_WR_SEND, 0, 0, 0, 0⟩, .deliver, .deliver, .deliver,
          .recvCompletion {}, .postRecv ⟨2, some ⟨2000, 4, 0⟩, 1⟩, .deliver, .recvCompletion {},
          .pollVirtualCq 4, .sendCompletion, .deliver, .recvCompletion {}] = .error e ∧
        SenderStops e :=
  delivered_of_matched (by decide) (by decide) (by decide) (by decide) 4 (-1) (by decide) (by decide)
    .DQPLB 0 0 _ (by decide +kernel)

/-- A buffer with one segment more than its message takes the first segment of the next message. -/
theorem undelivered_of_wellFormed :
    ¬ ∀ (sendQpNums recvQpNums : List ℕ) (sendNotifyQpNum recvNotifyQpNum : ℕ)
      (sendMaxMsgCnt recvMaxMsgCnt m : ℤ) (sendScheme recvScheme : LoadBalancingScheme)
      (sendCq recvCq : ℕ) (ops : List Op), sendQpNums ≠ [] →
      (sendNotifyQpNum :: sendQpNums).Nodup → recvQpNums ≠ [] →
      (recvNotifyQpNum :: recvQpNums).Nodup → 1 ≤ m → m ≤ INT_MAX →
      Admissible SendRecvLink.step WellFormed [] (connect sendQpNums sendNotifyQpNum recvQpNums
        recvNotifyQpNum sendMaxMsgCnt recvMaxMsgCnt m sendScheme recvScheme sendCq recvCq) ops →
      (∃ s, run SendRecvLink.step (connect sendQpNums sendNotifyQpNum recvQpNums recvNotifyQpNum
        sendMaxMsgCnt recvMaxMsgCnt m sendScheme recvScheme sendCq recvCq) ops = .ok s ∧
          Delivered ops s) ∨
        ∃ e, run SendRecvLink.step (connect sendQpNums sendNotifyQpNum recvQpNums recvNotifyQpNum
          sendMaxMsgCnt recvMaxMsgCnt m sendScheme recvScheme sendCq recvCq) ops = .error e ∧
            SenderStops e := by
  intro h
  rcases h [10] [20] 12 21 4 4 2 .SPRAY .SPRAY 0 0
    [.postRecv ⟨1, some ⟨1000, 3, 0⟩, 1⟩, .postRecv ⟨2, some ⟨2000, 1, 0⟩, 1⟩,
      .postSend ⟨1, some ⟨10, 1, 0⟩, 1, .IBV_WR_SEND, IBV_SEND_SIGNALED, 0, 0, 0⟩,
      .postSend ⟨2, some ⟨20, 1, 0⟩, 1, .IBV_WR_SEND, IBV_SEND_SIGNALED, 0, 0, 0⟩,
      .deliver, .deliver] (by decide) (by decide) (by decide) (by decide) (by decide) (by decide)
    (by decide +kernel) with ⟨s, hs, hdelivered⟩ | ⟨e, he, _⟩
  · cases hs
    exact absurd hdelivered.landed (by decide +kernel)
  · cases he

end SendRecvLink
end TorchComms.Ibverbx
