import TorchComms.Foundation.ReorderBuffer
import TorchComms.Foundation.Run
import TorchComms.Ibverbx.Verbs
import Mathlib.Data.Nat.Bitwise

/-! # `DqplbSeqTracker`: sequence numbers in immediate data -/
namespace TorchComms.Ibverbx

open Foundation

def kNotifyBit : ℕ := 31

/-- The mask of the 24 bits, used as the modulus too. -/
def kSeqNumMask : ℕ := 0xFFFFFF

structure DqplbSeqTracker where
  sendNext_ : ℕ := 0
  receiveNext_ : ℕ := 0
  receivedSeqNums_ : AList fun _ : ℕ => Bool := ∅

namespace DqplbSeqTracker

def getSendImm (t : DqplbSeqTracker) (remainingMsgCnt : ℤ) : ℕ × DqplbSeqTracker :=
  (if remainingMsgCnt = 1 then t.sendNext_ ||| 1 <<< kNotifyBit else t.sendNext_,
    { t with sendNext_ := (t.sendNext_ + 1) % kSeqNumMask })

/-- The number of notifications among the items that are no longer held. -/
def processReceivedImm (t : DqplbSeqTracker) (immData : ℕ) : ℤ × DqplbSeqTracker :=
  let r := ReorderBuffer.receive kSeqNumMask (immData &&& kSeqNumMask)
    (immData &&& 1 <<< kNotifyBit != 0) ⟨t.receiveNext_, t.receivedSeqNums_⟩
  (r.1.count true, { t with receiveNext_ := r.2.next, receivedSeqNums_ := r.2.held })

/-- The immediate of the segment `i`, which ends its message if `last`. -/
def immOf (i : ℕ) (last : Bool) : ℕ :=
  if last then i % kSeqNumMask ||| 1 <<< kNotifyBit else i % kSeqNumMask

theorem immOf_and_mask (i : ℕ) (last : Bool) : immOf i last &&& kSeqNumMask = i % kSeqNumMask := by
  have hlt : i % kSeqNumMask < 2 ^ 24 := Nat.lt_trans (Nat.mod_lt _ (by decide)) (by decide)
  have hmask : kSeqNumMask = 2 ^ 24 - 1 := rfl
  cases last with
  | false =>
    rw [immOf, if_neg (by decide)]
    conv => lhs; rw [hmask, Nat.and_two_pow_sub_one_eq_mod]
    exact Nat.mod_eq_of_lt hlt
  | true =>
    rw [immOf, if_pos rfl, Nat.and_or_distrib_right]
    have hbit : 1 <<< kNotifyBit &&& kSeqNumMask = 0 := by decide
    rw [hbit, Nat.or_zero]
    conv => lhs; rw [hmask, Nat.and_two_pow_sub_one_eq_mod]
    exact Nat.mod_eq_of_lt hlt

theorem immOf_notify (i : ℕ) (last : Bool) : (immOf i last &&& 1 <<< kNotifyBit != 0) = last := by
  have hlt : i % kSeqNumMask < 2 ^ kNotifyBit := Nat.lt_trans (Nat.mod_lt _ (by decide)) (by decide)
  have hlow : i % kSeqNumMask &&& 1 <<< kNotifyBit = 0 := by
    rw [Nat.one_shiftLeft, Nat.and_two_pow, Nat.testBit_lt_two_pow hlt]
    simp
  cases last with
  | false => simp [immOf, hlow]
  | true => simp [immOf, Nat.and_or_distrib_right, kNotifyBit]

variable {t : DqplbSeqTracker}

theorem getSendImm_eq {i : ℕ} (h : t.sendNext_ = i % kSeqNumMask) (r : ℤ) :
    t.getSendImm r = (immOf i (r = 1), { t with sendNext_ := (i + 1) % kSeqNumMask }) := by
  simp [getSendImm, immOf, h]

/-- The arrival of a new segment counts the notifications among the segments it releases. -/
theorem processReceivedImm_spec {f : ℕ → Bool} {S : Set ℕ} {p i : ℕ}
    (h : ReorderBuffer.Holds kSeqNumMask f S p ⟨t.receiveNext_, t.receivedSeqNums_⟩)
    (hnew : i ∉ S) (hwin : i < p + kSeqNumMask) :
    ∃ (n : ℕ) (t' : DqplbSeqTracker),
      t.processReceivedImm (immOf i (f i)) = ((((List.range' p n).map f).count true : ℤ), t') ∧
      ReorderBuffer.Holds kSeqNumMask f (insert i S) (p + n)
        ⟨t'.receiveNext_, t'.receivedSeqNums_⟩ ∧ p + n ∉ insert i S := by
  rcases ReorderBuffer.receive_spec h hnew hwin with ⟨n, hout, hholds, hmiss⟩
  refine ⟨n, (t.processReceivedImm (immOf i (f i))).2, ?_, ?_, hmiss⟩
  · simp only [processReceivedImm, immOf_and_mask, immOf_notify, hout]
  · simp only [processReceivedImm, immOf_and_mask, immOf_notify]
    exact hholds

end DqplbSeqTracker
end TorchComms.Ibverbx

/-! ## A sending and a receiving `DqplbSeqTracker`

The immediates that one tracker numbers arrive at the other in any order. The receiver's counts
add up to the notifications of the longest prefix that has arrived, and it holds what has arrived
beyond it, as long as what is missing lies in one window of the numbers.
-/
namespace TorchComms.Ibverbx

open Foundation

/-- Two trackers, the immediates sent, the places of those received in the order of their arrival,
and what `processReceivedImm` returned. -/
structure SeqLink where
  sender : DqplbSeqTracker := {}
  receiver : DqplbSeqTracker := {}
  sent : List ℕ := []
  received : List ℕ := []
  notifyCounts : List ℤ := []

inductive SeqAct where
  | getSendImm (remainingMsgCnt : ℤ)
  | processReceivedImm (i : ℕ)

/-- The number an immediate carries. -/
def seqNum (immData : ℕ) : ℕ := immData &&& kSeqNumMask

/-- The notify bit of an immediate. -/
def notifies (immData : ℕ) : Bool := immData &&& 1 <<< kNotifyBit != 0

namespace SeqLink

def step (l : SeqLink) : SeqAct → Except Fault SeqLink
  | .getSendImm remainingMsgCnt =>
    let r := l.sender.getSendImm remainingMsgCnt
    .ok { l with sender := r.2, sent := l.sent ++ [r.1] }
  | .processReceivedImm i =>
    match l.sent[i]? with
    | none => .error .outOfRange
    | some immData =>
      let r := l.receiver.processReceivedImm immData
      .ok { l with
        receiver := r.2, received := l.received ++ [i], notifyCounts := l.notifyCounts ++ [r.1] }

/-- What has been sent and not received lies in one window of the numbers. -/
def Windowed (l : SeqLink) : Prop :=
  ∀ i < l.sent.length, ∀ j < l.sent.length, i ∉ l.received → j ∉ l.received → i < j + kSeqNumMask

/-- Every immediate sent arrives once, while what is missing lies in a window. -/
def Permitted (l : SeqLink) : SeqAct → Prop
  | .getSendImm _ => True
  | .processReceivedImm i => i < l.sent.length ∧ i ∉ l.received ∧ l.Windowed

instance (l : SeqLink) (a : SeqAct) : Decidable (l.Permitted a) := by
  cases a with
  | getSendImm r => exact isTrue trivial
  | processReceivedImm i =>
    unfold Permitted Windowed
    infer_instance

/-- The first `p` immediates, and not the next one, have been received; the notifications counted
are those among them, and the map holds what was received beyond them. -/
structure ExactAt (l : SeqLink) (p : ℕ) : Prop where
  le_sent : p ≤ l.sent.length
  below : ∀ j < p, j ∈ l.received
  missing : p ∉ l.received
  counted : l.notifyCounts.sum = (l.sent.take p).countP notifies
  held : ∀ k b, l.receiver.receivedSeqNums_.lookup k = some b ↔
    ∃ j ∈ l.received, p ≤ j ∧ ∃ immData ∈ l.sent[j]?, seqNum immData = k ∧ notifies immData = b
  distinct : ∀ i ∈ l.received, ∀ j ∈ l.received, p ≤ i → p ≤ j →
    l.sent[i]?.map seqNum = l.sent[j]?.map seqNum → i = j

/-- The notify bit of the immediate at place `i`. -/
def bit (l : SeqLink) (i : ℕ) : Bool := notifies (l.sent.getD i 0)

/-- The invariant of a run, the first `p` immediates being received. -/
structure Tracked (l : SeqLink) (p : ℕ) : Prop where
  sendNext : l.sender.sendNext_ = l.sent.length % kSeqNumMask
  numbered : ∀ i immData, l.sent[i]? = some immData →
    immData = DqplbSeqTracker.immOf i (notifies immData)
  arrived : ∀ i ∈ l.received, i < l.sent.length
  holds : ReorderBuffer.Holds kSeqNumMask l.bit {i | i ∈ l.received} p
    ⟨l.receiver.receiveNext_, l.receiver.receivedSeqNums_⟩
  missing : p ∉ l.received
  counted : l.notifyCounts.sum = ((List.range p).map l.bit).count true

variable {l : SeqLink} {p : ℕ}

theorem tracked_init : Tracked {} 0 where
  sendNext := rfl
  numbered := by simp
  arrived := by simp
  holds := (ReorderBuffer.holds_init kSeqNumMask fun _ => false).congr (by simp) (by simp)
  missing := by simp
  counted := rfl

theorem bit_eq {i immData : ℕ} (h : l.sent[i]? = some immData) : l.bit i = notifies immData := by
  rw [bit, List.getD_eq_getElem?_getD, h, Option.getD_some]

section

variable (h : Tracked l p)
include h

theorem Tracked.le_sent : p ≤ l.sent.length := by
  by_contra hlt
  have hmem := h.arrived _ (h.holds.below l.sent.length (by omega))
  omega

theorem Tracked.getSendImm (r : ℤ) : ∃ l', l.step (.getSendImm r) = .ok l' ∧ Tracked l' p := by
  refine ⟨_, rfl, ?_⟩
  rw [DqplbSeqTracker.getSendImm_eq h.sendNext]
  have hbit : ∀ j < l.sent.length, ∀ imm,
      SeqLink.bit { l with sent := l.sent ++ [imm] } j = l.bit j := by
    intro j hj imm
    simp only [SeqLink.bit, List.getD_eq_getElem?_getD, List.getElem?_append_left hj]
  constructor
  · simp only [List.length_append, List.length_singleton]
  · intro i immData hi
    rcases Nat.lt_trichotomy i l.sent.length with hlt | rfl | hgt
    · simp only [List.getElem?_append_left hlt] at hi
      exact h.numbered i immData hi
    · simp only [List.getElem?_concat_length, Option.some.injEq] at hi
      rw [← hi, notifies, DqplbSeqTracker.immOf_notify]
    · rw [List.getElem?_eq_none (by simp; omega)] at hi
      cases hi
  · intro i hi
    have hlt := h.arrived i hi
    simp only [List.length_append, List.length_singleton]
    omega
  · exact h.holds.congr (fun _ => Iff.rfl) fun j hj => hbit j (h.arrived j hj) _
  · exact h.missing
  · have hle := h.le_sent
    rw [h.counted]
    congr 2
    apply List.map_congr_left
    intro j hj
    exact (hbit j (by have := List.mem_range.mp hj; omega) _).symm

theorem Tracked.processReceivedImm {i : ℕ} (hi : l.Permitted (.processReceivedImm i)) :
    ∃ l' n, l.step (.processReceivedImm i) = .ok l' ∧ Tracked l' (p + n) := by
  rcases hi with ⟨hlt, hnew, hwin⟩
  have hpi : p ≤ i := by
    by_contra hpi
    exact hnew (h.holds.below i (by omega))
  have himm := List.getElem?_eq_getElem hlt
  have hnum := h.numbered i _ himm
  rw [← bit_eq himm] at hnum
  rcases DqplbSeqTracker.processReceivedImm_spec h.holds (show i ∉ {i | i ∈ l.received} from hnew)
    (hwin i hlt p (by omega) hnew h.missing) with ⟨n, t, hreceive, hholds, hmiss⟩
  refine ⟨{ l with
    receiver := t
    received := l.received ++ [i]
    notifyCounts := l.notifyCounts ++ [(((List.range' p n).map l.bit).count true : ℤ)] }, n, ?_, ?_⟩
  · rw [step, himm]
    simp only [hnum, hreceive]
  · constructor
    · exact h.sendNext
    · exact h.numbered
    · intro j hj
      rcases List.mem_append.mp hj with hj | hj
      · exact h.arrived j hj
      · rw [List.mem_singleton.mp hj]
        exact hlt
    · exact hholds.congr (fun j => by simp [or_comm]) fun _ _ => rfl
    · intro hmem
      apply hmiss
      simpa [or_comm] using hmem
    · have hrange : List.range (p + n) = List.range p ++ List.range' p n := by
        rw [List.range_eq_range', List.range_eq_range', ← List.range'_append_1, Nat.zero_add]
      rw [hrange, List.map_append, List.count_append, Int.natCast_add, List.sum_append, h.counted,
        List.sum_singleton]
      rfl

theorem Tracked.exactAt : ExactAt l p where
  le_sent := h.le_sent
  below := h.holds.below
  missing := h.missing
  counted := by
    have htake : l.sent.take p = (List.range p).map fun i => l.sent.getD i 0 := by
      apply List.ext_getElem
      · simp [h.le_sent]
      · intro i hi hi'
        simp only [List.length_take] at hi
        simp [List.getElem?_eq_getElem (show i < l.sent.length by omega)]
    rw [h.counted, htake, List.countP_map, List.count, List.countP_map]
    congr 2
    funext i
    simp [bit]
  held := by
    intro k b
    rw [h.holds.held]
    constructor
    · rintro ⟨j, hj, hpj, hmod, hb⟩
      have himm := List.getElem?_eq_getElem (h.arrived j hj)
      refine ⟨j, hj, hpj, _, himm, ?_, ?_⟩
      · rw [seqNum, h.numbered j _ himm, DqplbSeqTracker.immOf_and_mask, hmod]
      · rw [← bit_eq himm, hb]
    · rintro ⟨j, hj, hpj, immData, himm, hnum, hb⟩
      refine ⟨j, hj, hpj, ?_, ?_⟩
      · rw [← hnum, seqNum, h.numbered j _ himm, DqplbSeqTracker.immOf_and_mask]
      · rw [bit_eq himm, hb]
  distinct := by
    intro i hi j hj hpi hpj hkey
    have hnum : ∀ i ∈ l.received, l.sent[i]?.map seqNum = some (i % kSeqNumMask) := by
      intro i hi
      have himm := List.getElem?_eq_getElem (h.arrived i hi)
      rw [himm, Option.map_some, seqNum, h.numbered i _ himm, DqplbSeqTracker.immOf_and_mask]
    rw [hnum i hi, hnum j hj, Option.some.injEq] at hkey
    exact ReorderBuffer.eq_of_mod_eq hpi hpj (h.holds.window i hi) (h.holds.window j hj) hkey

end

/-- Along every run whose missing immediates stay in a window, the counts returned add up to the
notifications of the longest prefix received, and what is held is what was received beyond it. -/
theorem run_exact (acts : List SeqAct)
    (hadm : Admissible step (fun _ l a => l.Permitted a) [] {} acts) :
    ∃ l p, run step {} acts = .ok l ∧ ExactAt l p := by
  have hstep : ∀ (past : List SeqAct) (l : SeqLink) (a : SeqAct), (∃ p, Tracked l p) →
      l.Permitted a → ∃ l', l.step a = .ok l' ∧ ∃ p, Tracked l' p := by
    rintro past l a ⟨p, hl⟩ ha
    cases a with
    | getSendImm r =>
      rcases hl.getSendImm r with ⟨l', hok, hl'⟩
      exact ⟨l', hok, p, hl'⟩
    | processReceivedImm i =>
      rcases hl.processReceivedImm ha with ⟨l', n, hok, hl'⟩
      exact ⟨l', hok, p + n, hl'⟩
  rcases run_invariant (fun _ l => ∃ p, Tracked l p) hstep acts ⟨0, tracked_init⟩ hadm with
    ⟨l, hok, p, hl⟩
  exact ⟨l, p, hok, hl.exactAt⟩

/-- Two messages, of two segments and of one, that arrive in the opposite order. -/
theorem run_exact_reversed : ∃ l p,
    run step {} [.getSendImm 2, .getSendImm 1, .getSendImm 1, .processReceivedImm 2,
      .processReceivedImm 1, .processReceivedImm 0] = .ok l ∧ ExactAt l p :=
  run_exact _ (by decide)

end SeqLink
end TorchComms.Ibverbx
