import TorchComms.Ibverbx.VirtualCq

/-! # How many completions a poll reports

A poll takes completions from the fronts of both queues, one from each in a round, and asks for
room once a round. It reports one completion more than it was asked for exactly when that number is
odd and both queues have more than half of it to report.
-/
namespace TorchComms.Ibverbx

open Foundation

/-- The third list has the items of the first two, in the order of each. -/
inductive Merge {α : Type*} : List α → List α → List α → Prop
  | nil : Merge [] [] []
  | left {xs ys zs : List α} (x : α) : Merge xs ys zs → Merge (xs ++ [x]) ys (zs ++ [x])
  | right {xs ys zs : List α} (y : α) : Merge xs ys zs → Merge xs (ys ++ [y]) (zs ++ [y])

variable {α : Type*}

theorem Merge.length {xs ys zs : List α} (h : Merge xs ys zs) :
    zs.length = xs.length + ys.length := by
  induction h with
  | nil => rfl
  | left x _ ih =>
    rw [List.length_append, List.length_append, ih]
    omega
  | right y _ ih =>
    rw [List.length_append, List.length_append, ih]
    omega

theorem Merge.trans {xs ys zs zs' : List α} (h : Merge xs ys zs) (heq : zs = zs') :
    Merge xs ys zs' := by
  rwa [← heq]

namespace IbvVirtualCq

variable {cq : IbvVirtualCq} {que₀ que : StableDeque VirtualWc} {taken : List VirtualWc} {n k : ℕ}

/-- The completed entries at the front of a queue. -/
def ready (que : StableDeque VirtualWc) : List VirtualWc :=
  que.items.takeWhile fun w => decide (¬ 0 < w.remainingMsgCnt)

/-- The queue without its first `n` entries. -/
def dropped (que : StableDeque VirtualWc) (n : ℕ) : StableDeque VirtualWc :=
  ⟨que.popped + n, que.items.drop n⟩

theorem pop_front_dropped (que : StableDeque VirtualWc) (n : ℕ) :
    (dropped que n).pop_front = dropped que (n + 1) := by
  rw [dropped, dropped, StableDeque.pop_front, List.tail_drop, Nat.add_assoc]

theorem ready_of_waits (h : Waits que) : ready que = [] := by
  rw [ready]
  cases hitems : que.items with
  | nil => rfl
  | cons w ws =>
    have hw : 0 < w.remainingMsgCnt := h w (by simp [hitems])
    simp [hw]

theorem ready_pop_front {w : VirtualWc} {ws : List VirtualWc} (hitems : que.items = w :: ws)
    (hw : ¬ 0 < w.remainingMsgCnt) : ready que = w :: ready que.pop_front := by
  have htail : que.pop_front.items = ws := by
    rw [StableDeque.pop_front, hitems, List.tail_cons]
  rw [ready, ready, htail, hitems, List.takeWhile_cons, if_pos (decide_eq_true hw)]

/-- In `k` rounds the entries `taken` of the queue were reported: one a round, until the front was
missing or incomplete. -/
structure Progress (que₀ : StableDeque VirtualWc) (k : ℕ) (taken : List VirtualWc)
    (que : StableDeque VirtualWc) (complete : Bool) : Prop where
  left : que = dropped que₀ taken.length
  front : ready que₀ = taken ++ ready que
  waits : complete = true → Waits que ∧ taken.length < k
  going : complete = false → taken.length = k

theorem pollFront_progress {s : PollFront} (h : Progress que₀ k taken s.que s.complete) :
    (Progress que₀ (k + 1) taken (pollFront s).que (pollFront s).complete ∧
      (pollFront s).map = s.map ∧ (pollFront s).wcs = s.wcs) ∨
    ∃ w, Progress que₀ (k + 1) (taken ++ [w]) (pollFront s).que (pollFront s).complete ∧
      (pollFront s).map = Function.update s.map w.wr_id none ∧
      (pollFront s).wcs = s.wcs ++ [w.wc] := by
  have hstay : Waits s.que → taken.length < k + 1 → pollFront s = { s with complete := true } →
      Progress que₀ (k + 1) taken (pollFront s).que (pollFront s).complete ∧
        (pollFront s).map = s.map ∧ (pollFront s).wcs = s.wcs := by
    intro hwaits hlt heq
    rw [heq]
    exact ⟨⟨h.left, h.front, fun _ => ⟨hwaits, hlt⟩, nofun⟩, rfl, rfl⟩
  cases hdone : s.complete with
  | true =>
    rcases h.waits hdone with ⟨hwaits, hlt⟩
    apply Or.inl (hstay hwaits (Nat.lt_succ_of_lt hlt) _)
    rw [pollFront, if_pos hdone, ← hdone]
  | false =>
    have hlen := h.going hdone
    cases hitems : s.que.items with
    | nil =>
      apply Or.inl (hstay (by simp [Waits, hitems]) (by omega) _)
      simp [pollFront, hdone, hitems]
    | cons w ws =>
      by_cases hpos : 0 < w.remainingMsgCnt
      · apply Or.inl (hstay (by simp [Waits, hitems, hpos]) (by omega) _)
        simp [pollFront, hdone, hitems, hpos]
      · have heq : pollFront s = { s with
            map := Function.update s.map w.wr_id none
            wcs := s.wcs ++ [w.wc]
            que := s.que.pop_front } := by
          simp [pollFront, hdone, hitems, hpos]
        refine Or.inr ⟨w, ?_, ?_⟩
        · rw [heq]
          constructor
          · rw [h.left, pop_front_dropped, List.length_append, List.length_singleton]
          · rw [h.front, ready_pop_front hitems hpos, List.append_assoc, List.singleton_append]
          · intro hcomplete
            rw [hdone] at hcomplete
            cases hcomplete
          · intro _
            rw [List.length_append, List.length_singleton, hlen]
        · rw [heq]
          exact ⟨rfl, rfl⟩

/-- From `cq` the completions `sends` and `recvs` were reported, and nothing else changed. -/
structure Reported (cq : IbvVirtualCq) (sends recvs : List VirtualWc) (wcs : List IbvWc)
    (cq' : IbvVirtualCq) : Prop where
  sendsFront : sends <+: ready cq.pendingSendVirtualWcQue_
  recvsFront : recvs <+: ready cq.pendingRecvVirtualWcQue_
  wcs : Merge (sends.map VirtualWc.wc) (recvs.map VirtualWc.wc) wcs
  sendQue : cq'.pendingSendVirtualWcQue_ = dropped cq.pendingSendVirtualWcQue_ sends.length
  recvQue : cq'.pendingRecvVirtualWcQue_ = dropped cq.pendingRecvVirtualWcQue_ recvs.length
  map : cq'.virtualWrIdToVirtualWc_ = fun id =>
    if (∃ w ∈ sends, w.wr_id = id) ∨ ∃ w ∈ recvs, w.wr_id = id then none
    else cq.virtualWrIdToVirtualWc_ id

/-- A poll reports at most `numEntries` completions, the completed entries at the fronts of the
queues in their order, removes these, and stops early only where nothing is left to report. -/
def RespectsBound (cq : IbvVirtualCq) (numEntries : ℕ) : Prop :=
  ∃ wcs cq' sends recvs, cq.loopPollVirtualCqUntil numEntries = .ok (wcs, cq') ∧
    Reported cq sends recvs wcs cq' ∧ wcs.length ≤ numEntries ∧
    (wcs.length < numEntries →
      Waits cq'.pendingSendVirtualWcQue_ ∧ Waits cq'.pendingRecvVirtualWcQue_)

/-- The last round has room for one completion and takes two. -/
def Overshoots (cq : IbvVirtualCq) (numEntries : ℕ) : Prop :=
  numEntries % 2 = 1 ∧ numEntries / 2 < (ready cq.pendingSendVirtualWcQue_).length ∧
    numEntries / 2 < (ready cq.pendingRecvVirtualWcQue_).length

instance (cq : IbvVirtualCq) (numEntries : ℕ) : Decidable (Overshoots cq numEntries) :=
  inferInstanceAs (Decidable (_ ∧ _ ∧ _))

theorem Progress.count {complete : Bool} (h : Progress que₀ k taken que complete) :
    taken.length ≤ (ready que₀).length ∧
      (taken.length = k ∨
        taken.length < k ∧ taken.length = (ready que₀).length) := by
  have hlen := congrArg List.length h.front
  rw [List.length_append] at hlen
  refine ⟨by omega, ?_⟩
  cases complete with
  | false => exact Or.inl (h.going rfl)
  | true =>
    rcases h.waits rfl with ⟨hwaits, hlt⟩
    rw [ready_of_waits hwaits, List.length_nil] at hlen
    exact Or.inr ⟨hlt, by omega⟩

theorem update_forget {map map₀ : ℕ → Option (Option WcPtr)} {p p' : ℕ → Prop} [DecidablePred p]
    [DecidablePred p'] {i : ℕ} (h : map = fun id => if p id then none else map₀ id)
    (hp : ∀ id, p' id ↔ p id ∨ id = i) :
    Function.update map i none = fun id => if p' id then none else map₀ id := by
  funext id
  simp only [h, Function.update_apply, hp]
  by_cases hid : id = i
  · simp [hid]
  · simp [hid]

/-- The polling run from `cq` after `j` steps on the send queue and `k` on the receive queue. -/
structure Rounds (cq : IbvVirtualCq) (j k : ℕ) (sends recvs : List VirtualWc) (s : PollState) :
    Prop where
  send : Progress cq.pendingSendVirtualWcQue_ j sends s.cq.pendingSendVirtualWcQue_
    s.virtualSendCqPollComplete
  recv : Progress cq.pendingRecvVirtualWcQue_ k recvs s.cq.pendingRecvVirtualWcQue_
    s.virtualRecvCqPollComplete
  wcs : Merge (sends.map VirtualWc.wc) (recvs.map VirtualWc.wc) s.wcs
  map : s.cq.virtualWrIdToVirtualWc_ = fun id =>
    if (∃ w ∈ sends, w.wr_id = id) ∨ ∃ w ∈ recvs, w.wr_id = id then none
    else cq.virtualWrIdToVirtualWc_ id

theorem rounds_init (cq : IbvVirtualCq) : Rounds cq 0 0 [] [] { cq := cq } where
  send := ⟨rfl, rfl, nofun, fun _ => rfl⟩
  recv := ⟨rfl, rfl, nofun, fun _ => rfl⟩
  wcs := .nil
  map := by
    funext id
    simp

namespace Rounds

variable {j : ℕ} {sends recvs : List VirtualWc} {s : PollState}

section

variable (h : Rounds cq j k sends recvs s)
include h

theorem length : s.wcs.length = sends.length + recvs.length := by
  have hlen := h.wcs.length
  rwa [List.length_map, List.length_map] at hlen

theorem reported : Reported cq sends recvs s.wcs s.cq where
  sendsFront := ⟨_, h.send.front.symm⟩
  recvsFront := ⟨_, h.recv.front.symm⟩
  __ := h
  sendQue := h.send.left
  recvQue := h.recv.left

theorem pollSend :
    ∃ sends', Rounds cq (j + 1) k sends' recvs (pollSend s) ∧
      (sends'.length = sends.length ∨ sends'.length = sends.length + 1) := by
  rcases pollFront_progress (s := ⟨s.cq.pendingSendVirtualWcQue_, s.cq.virtualWrIdToVirtualWc_,
    s.wcs, s.virtualSendCqPollComplete⟩) h.send with ⟨hq, hmap, hwcs⟩ | ⟨w, hq, hmap, hwcs⟩
  · exact ⟨sends, ⟨hq, h.recv, h.wcs.trans hwcs.symm, hmap.trans h.map⟩, Or.inl rfl⟩
  · refine ⟨sends ++ [w], ⟨hq, h.recv, ?_, ?_⟩, Or.inr (by simp)⟩
    · rw [List.map_append, List.map_singleton]
      exact (h.wcs.left w.wc).trans hwcs.symm
    · apply hmap.trans (update_forget h.map _)
      intro id
      simp only [List.mem_append, List.mem_singleton]
      grind

theorem pollRecv :
    ∃ recvs', Rounds cq j (k + 1) sends recvs' (pollRecv s) ∧
      (recvs'.length = recvs.length ∨ recvs'.length = recvs.length + 1) := by
  rcases pollFront_progress (s := ⟨s.cq.pendingRecvVirtualWcQue_, s.cq.virtualWrIdToVirtualWc_,
    s.wcs, s.virtualRecvCqPollComplete⟩) h.recv with ⟨hq, hmap, hwcs⟩ | ⟨w, hq, hmap, hwcs⟩
  · exact ⟨recvs, ⟨h.send, hq, h.wcs.trans hwcs.symm, hmap.trans h.map⟩, Or.inl rfl⟩
  · refine ⟨recvs ++ [w], ⟨h.send, hq, ?_, ?_⟩, Or.inr (by simp)⟩
    · rw [List.map_append, List.map_singleton]
      exact (h.wcs.right w.wc).trans hwcs.symm
    · apply hmap.trans (update_forget h.map _)
      intro id
      simp only [List.mem_append, List.mem_singleton]
      grind

end

end Rounds

/-- What the room test of every round leaves. -/
def Filled (n : ℕ) (sends recvs : List VirtualWc) : Prop :=
  sends.length + recvs.length ≤ n ∨
    n % 2 = 1 ∧ n / 2 < sends.length ∧ n / 2 < recvs.length ∧
      sends.length + recvs.length = n + 1

/-- A poll ends. What it reports is at most one completion too much, where the last round
overshoots. -/
theorem poll_spec (cq : IbvVirtualCq) (numEntries : ℕ) :
    ∃ wcs cq' sends recvs, cq.loopPollVirtualCqUntil numEntries = .ok (wcs, cq') ∧
      Reported cq sends recvs wcs cq' ∧ wcs.length ≤ numEntries + 1 ∧
      (numEntries < wcs.length ↔ Overshoots cq numEntries) ∧
      (wcs.length < numEntries →
        Waits cq'.pendingSendVirtualWcQue_ ∧ Waits cq'.pendingRecvVirtualWcQue_) := by
  have hround : ∀ s, s.wcs.length < numEntries →
      (∃ k sends recvs, Rounds cq k k sends recvs s ∧ Filled numEntries sends recvs) →
      ∃ k sends recvs, Rounds cq k k sends recvs (pollRecv (pollSend s)) ∧
        Filled numEntries sends recvs := by
    rintro s hlt ⟨k, sends, recvs, hs, _⟩
    rw [hs.length] at hlt
    rcases hs.pollSend with ⟨sends', hs', hsends⟩
    rcases hs'.pollRecv with ⟨recvs', hs'', hrecvs⟩
    refine ⟨k + 1, sends', recvs', hs'', ?_⟩
    have hsend := hs.send.count
    have hrecv := hs.recv.count
    have hsend' := hs''.send.count
    have hrecv' := hs''.recv.count
    rw [Filled]
    omega
  have hinit : Filled numEntries [] [] := Or.inl (Nat.zero_le _)
  rcases poll_rounds cq _ numEntries hround ⟨0, [], [], rounds_init cq, hinit⟩ with
    ⟨s, hok, ⟨k, sends, recvs, hs, hfilled⟩, hend⟩
  have hlen := hs.length
  have hsend := hs.send.count
  have hrecv := hs.recv.count
  refine ⟨s.wcs, s.cq, sends, recvs, hok, hs.reported, ?_, ?_, ?_⟩
  · rw [Filled] at hfilled
    omega
  · rw [Filled] at hfilled
    rw [Overshoots]
    constructor
    · intro hover
      omega
    · intro hover
      rcases hend with hfull | ⟨hwaits, hwaits'⟩
      · omega
      · have hall := congrArg List.length hs.send.front
        have hall' := congrArg List.length hs.recv.front
        rw [ready_of_waits hwaits, List.append_nil] at hall
        rw [ready_of_waits hwaits', List.append_nil] at hall'
        omega
  · intro hlt
    rcases hend with hfull | hwaits
    · omega
    · exact hwaits

/-- A poll keeps to its bound exactly when it was asked for an even number of completions, or one
of the queues has at most half of it to report. -/
theorem respectsBound_iff (cq : IbvVirtualCq) (numEntries : ℕ) :
    RespectsBound cq numEntries ↔ ¬ Overshoots cq numEntries := by
  rcases poll_spec cq numEntries with ⟨wcs, cq', sends, recvs, hok, hreported, hle, hover, hend⟩
  rw [← hover]
  constructor
  · rintro ⟨wcs', cq'', sends', recvs', hok', _, hle', _⟩
    rw [hok] at hok'
    cases hok'
    omega
  · intro hnot
    exact ⟨wcs, cq', sends, recvs, hok, hreported, by omega, hend⟩

/-- A send and a receive have completed. -/
def bothDone : IbvVirtualCq where
  pendingSendVirtualWcQue_ := ⟨0, [(VirtualWc.fresh 1 7 1 false).charge {}]⟩
  pendingRecvVirtualWcQue_ := ⟨0, [(VirtualWc.fresh 2 7 1 false).charge {}]⟩
  virtualWrIdToVirtualWc_ := fun id =>
    if id = 1 then some (some (.send 0)) else if id = 2 then some (some (.recv 0)) else none

theorem not_respectsBound_bothDone :
    ¬ ∀ (cq : IbvVirtualCq) (numEntries : ℕ), RespectsBound cq numEntries := by
  intro hall
  rcases hall bothDone 1 with ⟨wcs, cq', sends, recvs, hok, _, hle, _⟩
  cases hok
  revert hle
  decide

end IbvVirtualCq
end TorchComms.Ibverbx
