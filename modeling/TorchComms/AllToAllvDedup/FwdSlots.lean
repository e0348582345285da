import TorchComms.AllToAllvDedup.FwdTickets
import TorchComms.Foundation.RingSlot

/-! # What the chunks hold

As long as no worker laps, the steps that share a chunk go through it one after the other, worker by
worker: a flag is set by the step that the receiver waits for or reads, and whoever writes for a
step writes after the receiver has unset the flag for the step before.
-/
namespace TorchComms.AllToAllvDedup
open Function

namespace FwdConfig

variable {c : FwdConfig} {i j : ℕ}

theorem round_of_lt (hij : i < j) (hidx : c.getTmpChunkIdx i = c.getTmpChunkIdx j) :
    c.tmpNumChunks ≤ j ∧ i ≤ j - c.tmpNumChunks ∧
      c.getTmpChunkIdx (j - c.tmpNumChunks) = c.getTmpChunkIdx j :=
  Foundation.round_of_slot_eq c.tmpNumChunks_pow hij hidx

theorem mem_allCells {e : Cell} (he : e ∈ c.allCells) : ∃ w < c.numWorkers, e ∈ cells w := by
  unfold allCells at he
  rw [Finset.mem_union, Finset.mem_image] at he
  have hpos := c.numWorkers_pos
  rcases he with he | ⟨w, hw, rfl⟩
  · use 0, hpos
    rcases Finset.mem_insert.mp he with rfl | he
    · simp [cells]
    · rw [Finset.mem_singleton.mp he]
      simp [cells]
  · use w, Finset.mem_range.mp hw
    unfold cells
    split
    · rename_i hzero
      simp [hzero]
    · simp

end FwdConfig

/-- The receiver has seen the flag of a worker for its step. -/
def Receiver.Saw {β : Type} (w : ℕ) : Receiver β → Prop
  | .waitPost left => w ∉ left
  | _ => True

/-- The receiver has unset the flag of a worker for its step. -/
def Receiver.Unset {β : Type} (w : ℕ) : Receiver β → Prop
  | .complete left => w ∉ left
  | _ => False

/-- The steps that the receiver has consumed besides those it is through with. -/
def Receiver.done {β : Type} : Receiver β → ℕ
  | .complete _ => 1
  | _ => 0

namespace FwdState

variable {β : Type} {c : FwdConfig} {chunk : ℕ → ℕ → Cell → β} {s t : FwdState β} {g w i j : ℕ}

def Seen (s : FwdState β) (j w : ℕ) : Prop := j < s.recvStep ∨ j = s.recvStep ∧ s.receiver.Saw w

def Cleared (s : FwdState β) (j w : ℕ) : Prop :=
  j < s.recvStep ∨ j = s.recvStep ∧ s.receiver.Unset w

/-- The worker has written or writes its part of the step. -/
def Past (s : FwdState β) (j w : ℕ) : Prop :=
  s.Posted j w ∨ s.InCopy (s.takenBy j).1 w j

/-- The worker has written this part of the step. -/
def Written (s : FwdState β) (j w : ℕ) (e : Cell) : Prop :=
  s.Posted j w ∨ ∃ left, s.worker ((s.takenBy j).1, w) = .copy j left ∧ e ∉ left

def content (chunk : ℕ → ℕ → Cell → β) (s : FwdState β) (j : ℕ) : Cell → β :=
  chunk (s.takenBy j).1 (s.takenBy j).2

theorem Written.past {e : Cell} (h : s.Written j w e) : s.Past j w := by
  rcases h with h | ⟨left, h, _⟩
  · exact .inl h
  · exact .inr ⟨left, h⟩

theorem Cleared.of_lt (h : s.Cleared j w) (hlt : i < j) (v : ℕ) : s.Cleared i v := by
  apply Or.inl
  rcases h with h | ⟨h, _⟩ <;> omega

theorem Cleared.seen (h : s.Cleared j w) (v : ℕ) : s.Seen j v := by
  rcases h with h | ⟨h, hunset⟩
  · exact .inl h
  · refine .inr ⟨h, ?_⟩
    cases hr : s.receiver with
    | waitPost left =>
      rw [hr] at hunset
      exact hunset.elim
    | copy left got => trivial
    | complete left => trivial

/-- What the receiver has consumed and reads. -/
structure Consumed (c : FwdConfig) (chunk : ℕ → ℕ → Cell → β) (s : FwdState β) : Prop where
  length : s.consumed.length = s.recvStep + s.receiver.done
  content : ∀ i got, s.consumed[i]? = some got →
    ∀ e ∈ c.allCells, got e = some (s.content chunk i e)
  reading : ∀ left got, s.receiver = .copy left got →
    left ⊆ c.allCells ∧ ∀ e ∈ c.allCells, e ∉ left → got e = some (s.content chunk s.recvStep e)

structure Slots (c : FwdConfig) (chunk : ℕ → ℕ → Cell → β) (s : FwdState β) : Prop where
  posted : ∀ j < s.remRecvSteps, ∀ w < c.numWorkers, s.Posted j w → ¬ s.Cleared j w →
    s.flags (c.getTmpChunkIdx j, w) = .kPosted
  flag : ∀ x, ∀ w < c.numWorkers, s.flags (x, w) = .kPosted →
    ∃ j < s.remRecvSteps, c.getTmpChunkIdx j = x ∧ s.Posted j w ∧ ¬ s.Cleared j w
  past : ∀ j < s.remRecvSteps, ∀ w < c.numWorkers, s.Past j w →
    ∀ i < j, c.getTmpChunkIdx i = c.getTmpChunkIdx j → s.Cleared i w
  seen : ∀ w < c.numWorkers, ∀ j, s.Seen j w → j < s.remRecvSteps ∧ s.Posted j w
  buffer : ∀ j < s.remRecvSteps, s.consumed.length ≤ j → ∀ w < c.numWorkers, ∀ e ∈ cells w,
    s.Written j w e → s.tmpRecvBuff (c.getTmpChunkIdx j, e) = s.content chunk j e

namespace Slots

theorem initial (tmpRecvBuff : ℕ × Cell → β) :
    Slots c chunk (FwdState.initial c tmpRecvBuff) ∧
      Consumed c chunk (FwdState.initial c tmpRecvBuff) := by
  constructor
  · constructor
    · exact fun j hj => absurd hj (Nat.not_lt_zero j)
    · exact fun x w _ h => nomatch h
    · exact fun j hj => absurd hj (Nat.not_lt_zero j)
    · rintro w hw j (h | ⟨_, h⟩)
      · exact absurd h (Nat.not_lt_zero j)
      · exact absurd (Finset.mem_range.mpr hw) h
    · exact fun j hj => absurd hj (Nat.not_lt_zero j)
  · constructor
    · rfl
    · intro i got h
      cases h
    · intro left got h
      cases h

theorem not_posted_of_inCopy (ht : Tickets c s) (hg : g < c.numGroups) (hw : w < c.numWorkers)
    (h : s.InCopy g w i) : i < s.remRecvSteps ∧ s.takenBy i = (g, s.posts (g, w)) ∧ ¬ s.Posted i w := by
  obtain ⟨left, hcopy⟩ := h
  obtain ⟨hi, htaken⟩ := ht.held g hg w hw i (by rw [hcopy]; rfl)
  refine ⟨hi, htaken, ?_⟩
  unfold Posted
  rw [htaken]
  exact Nat.lt_irrefl _

section

variable (h : Slots c chunk s)
include h

theorem posted_of_past (hj : j < s.remRecvSteps) (hw : w < c.numWorkers)
    (hpast : s.Past j w) (hij : i < j) (hidx : c.getTmpChunkIdx i = c.getTmpChunkIdx j) {v : ℕ}
    (hv : v < c.numWorkers) : s.Posted i v :=
  (h.seen v hv i ((h.past j hj w hw hpast i hij hidx).seen v)).2

theorem exclusive (ht : Tickets c s) {g' w' : ℕ} (hg : g < c.numGroups)
    (hw : w < c.numWorkers) (hg' : g' < c.numGroups) (hw' : w' < c.numWorkers)
    (hi : s.InCopy g w i) (hj : s.InCopy g' w' j)
    (hidx : c.getTmpChunkIdx i = c.getTmpChunkIdx j) : i = j := by
  obtain ⟨hilt, hiTaken, hiPosted⟩ := not_posted_of_inCopy ht hg hw hi
  obtain ⟨hjlt, hjTaken, hjPosted⟩ := not_posted_of_inCopy ht hg' hw' hj
  rcases Nat.lt_trichotomy i j with hlt | heq | hlt
  · have hpast : s.Past j w' := .inr (by rwa [hjTaken])
    exact absurd (h.posted_of_past hjlt hw' hpast hlt hidx hw) hiPosted
  · exact heq
  · have hpast : s.Past i w := .inr (by rwa [hiTaken])
    exact absurd (h.posted_of_past hilt hw hpast hlt hidx.symm hw') hjPosted

theorem unread (ht : Tickets c s) (hc : Consumed c chunk s)
    (hg : g < c.numGroups) (hw : w < c.numWorkers) (hi : s.InCopy g w i) (hj : j < s.remRecvSteps)
    (hidx : c.getTmpChunkIdx j = c.getTmpChunkIdx i)
    (hposted : ∀ v < c.numWorkers, s.Posted j v) : j < s.consumed.length := by
  obtain ⟨hilt, hiTaken, hiPosted⟩ := not_posted_of_inCopy ht hg hw hi
  have hpast : s.Past i w := .inr (by rwa [hiTaken])
  rcases Nat.lt_trichotomy i j with hlt | rfl | hlt
  · exact absurd (h.posted_of_past hj hw (.inl (hposted w hw)) hlt hidx.symm hw) hiPosted
  · exact absurd (hposted w hw) hiPosted
  · have hcleared := h.past i hilt w hw hpast j hlt hidx
    rw [hc.length]
    rcases hcleared with hlt | ⟨rfl, hunset⟩
    · omega
    · cases hr : s.receiver with
      | waitPost left =>
        rw [hr] at hunset
        exact hunset.elim
      | copy left got =>
        rw [hr] at hunset
        exact hunset.elim
      | complete left => exact Nat.lt_succ_self _

section

variable (hc : Consumed c chunk s)
include hc

theorem lt_of_consumed (hi : i < s.consumed.length) : i < s.remRecvSteps := by
  apply (h.seen 0 c.numWorkers_pos i _).1
  rw [hc.length] at hi
  by_cases hlt : i < s.recvStep
  · exact .inl hlt
  · cases hr : s.receiver with
    | waitPost left =>
      rw [hr] at hi
      exact absurd hi hlt
    | copy left got =>
      rw [hr] at hi
      exact absurd hi hlt
    | complete left =>
      rw [hr, Receiver.done] at hi
      exact .inr ⟨by omega, by rw [hr]; trivial⟩

/-- The operations before `waitReady` leave the chunks and the receiver alone. -/
theorem ticket (hsteps : s.remRecvSteps ≤ t.remRecvSteps)
    (htaken : ∀ j < s.remRecvSteps, t.takenBy j = s.takenBy j) (hposts : t.posts = s.posts)
    (hflags : t.flags = s.flags) (hbuff : t.tmpRecvBuff = s.tmpRecvBuff)
    (hreceiver : t.receiver = s.receiver) (hrecvStep : t.recvStep = s.recvStep)
    (hconsumed : t.consumed = s.consumed)
    (hcopy : ∀ p i left, t.worker p = .copy i left → s.worker p = .copy i left)
    (hnew : ∀ j, s.remRecvSteps ≤ j → j < t.remRecvSteps → ∀ w < c.numWorkers, ¬ t.Past j w) :
    Slots c chunk t ∧ Consumed c chunk t := by
  have hPosted : ∀ j < s.remRecvSteps, ∀ w, t.Posted j w ↔ s.Posted j w := by
    intro j hj w
    unfold Posted
    rw [htaken j hj, hposts]
  have hCleared : ∀ j w, t.Cleared j w ↔ s.Cleared j w := by
    intro j w
    unfold Cleared
    rw [hreceiver, hrecvStep]
  have hold : ∀ j < t.remRecvSteps, ∀ w < c.numWorkers, t.Past j w → j < s.remRecvSteps := by
    intro j hj w hw hpast
    by_contra hge
    exact hnew j (by omega) hj w hw hpast
  have hcontent : ∀ j < s.remRecvSteps, t.content chunk j = s.content chunk j := by
    intro j hj
    unfold FwdState.content
    rw [htaken j hj]
  constructor
  · constructor
    · intro j hj w hw hposted hcleared
      have hlt := hold j hj w hw (.inl hposted)
      rw [hflags]
      exact h.posted j hlt w hw ((hPosted j hlt w).mp hposted) fun hc => hcleared ((hCleared j w).mpr hc)
    · intro x w hw hx
      rw [hflags] at hx
      obtain ⟨j, hj, hidx, hposted, hcleared⟩ := h.flag x w hw hx
      exact ⟨j, hj.trans_le hsteps, hidx, (hPosted j hj w).mpr hposted,
        fun hc => hcleared ((hCleared j w).mp hc)⟩
    · intro j hj w hw hpast i hij hidx
      have hlt := hold j hj w hw hpast
      rw [hCleared]
      refine h.past j hlt w hw ?_ i hij hidx
      rcases hpast with hposted | ⟨left, hleft⟩
      · exact .inl ((hPosted j hlt w).mp hposted)
      · rw [htaken j hlt] at hleft
        exact .inr ⟨left, hcopy _ _ _ hleft⟩
    · intro w hw j hseen
      unfold Seen at hseen
      rw [hreceiver, hrecvStep] at hseen
      obtain ⟨hj, hposted⟩ := h.seen w hw j hseen
      exact ⟨hj.trans_le hsteps, (hPosted j hj w).mpr hposted⟩
    · intro j hj hlen w hw e he hwritten
      have hlt := hold j hj w hw hwritten.past
      rw [hbuff, hcontent j hlt]
      rw [hconsumed] at hlen
      refine h.buffer j hlt hlen w hw e he ?_
      rcases hwritten with hposted | ⟨left, hleft, hmem⟩
      · exact .inl ((hPosted j hlt w).mp hposted)
      · rw [htaken j hlt] at hleft
        exact .inr ⟨left, hcopy _ _ _ hleft, hmem⟩
  · constructor
    · rw [hconsumed, hreceiver, hrecvStep]
      exact hc.length
    · intro i got hgot e he
      rw [hconsumed] at hgot
      rw [hcontent i (h.lt_of_consumed hc (List.getElem?_eq_some_iff.mp hgot).1)]
      exact hc.content i got hgot e he
    · intro left got hr
      rw [hreceiver] at hr
      obtain ⟨hsub, hread⟩ := hc.reading left got hr
      refine ⟨hsub, ?_⟩
      rw [hrecvStep, hcontent s.recvStep (h.seen 0 c.numWorkers_pos s.recvStep
        (.inr ⟨rfl, by rw [hr]; trivial⟩)).1]
      exact hread

section

variable (ht : Tickets c s) (hg : g < c.numGroups) (hw : w < c.numWorkers)
include ht hg hw

theorem waitReady
    (hwait : s.worker (g, w) = .waitReady i) (hflag : s.flags (c.getTmpChunkIdx i, w) = .kUnset)
    (hturn : c.tmpNumChunks ≤ i → s.Posted (i - c.tmpNumChunks) w) :
    Slots c chunk (s.setWorker g w (.copy i (cells w))) ∧
      Consumed c chunk (s.setWorker g w (.copy i (cells w))) := by
  obtain ⟨hi, htaken⟩ := ht.held g hg w hw i (by rw [hwait]; rfl)
  set t := s.setWorker g w (.copy i (cells w))
  have hself : t.worker (g, w) = .copy i (cells w) := setWorker_self _
  have hother : ∀ p, p ≠ (g, w) → t.worker p = s.worker p := fun p hp => setWorker_of_ne hp
  have hcopy : ∀ p j left, t.worker p = .copy j left →
      s.worker p = .copy j left ∨ p = (g, w) ∧ j = i ∧ left = cells w := by
    intro p j left hleft
    by_cases hp : p = (g, w)
    · rw [hp, hself] at hleft
      cases hleft
      exact .inr ⟨hp, rfl, rfl⟩
    · exact .inl ((hother p hp).symm.trans hleft)
  constructor
  · constructor
    · exact h.posted
    · exact h.flag
    · rintro j hj v hv (hposted | ⟨left, hleft⟩) k hk hidx
      · exact h.past j hj v hv (.inl hposted) k hk hidx
      · rcases hcopy _ j left hleft with hold | ⟨heq, rfl, _⟩
        · exact h.past j hj v hv (.inr ⟨left, hold⟩) k hk hidx
        · -- the step before in the chunk has been posted, so its flag has been unset again
          have hvw : v = w := congrArg Prod.snd heq
          subst hvw
          obtain ⟨hround, hle, hback⟩ := FwdConfig.round_of_lt hk hidx
          have hcleared : s.Cleared (j - c.tmpNumChunks) v := by
            by_contra hnot
            have hset := h.posted (j - c.tmpNumChunks) (by omega) v hv (hturn hround) hnot
            rw [hback, hflag] at hset
            cases hset
          rcases Nat.lt_or_eq_of_le hle with hlt | rfl
          · exact hcleared.of_lt hlt v
          · exact hcleared
    · exact h.seen
    · rintro j hj hlen v hv e he (hposted | ⟨left, hleft, hmem⟩)
      · exact h.buffer j hj hlen v hv e he (.inl hposted)
      · rcases hcopy _ j left hleft with hold | ⟨heq, _, hleft⟩
        · exact h.buffer j hj hlen v hv e he (.inr ⟨left, hold, hmem⟩)
        · have hvw : v = w := congrArg Prod.snd heq
          rw [hleft, ← hvw] at hmem
          exact absurd he hmem
  · exact ⟨hc.length, hc.content, hc.reading⟩

theorem write
    {e : Cell} {left : List Cell} (hcopying : s.worker (g, w) = .copy i (e :: left)) :
    let t : FwdState β := { s.setWorker g w (.copy i left) with
      tmpRecvBuff := update s.tmpRecvBuff (c.getTmpChunkIdx i, e) (chunk g (s.posts (g, w)) e) }
    Slots c chunk t ∧ Consumed c chunk t := by
  intro t
  have hin : s.InCopy g w i := ⟨_, hcopying⟩
  obtain ⟨hi, htaken, hnot⟩ := not_posted_of_inCopy ht hg hw hin
  have hpasti : s.Past i w := .inr (by rwa [htaken])
  have hself : t.worker (g, w) = .copy i left := setWorker_self _
  have hother : ∀ p, p ≠ (g, w) → t.worker p = s.worker p := fun p hp => setWorker_of_ne hp
  have hcopy : ∀ p j rest, t.worker p = .copy j rest →
      s.worker p = .copy j rest ∨ p = (g, w) ∧ j = i ∧ rest = left := by
    intro p j rest hrest
    by_cases hp : p = (g, w)
    · rw [hp, hself] at hrest
      cases hrest
      exact .inr ⟨hp, rfl, rfl⟩
    · exact .inl ((hother p hp).symm.trans hrest)
  have hpast : ∀ j v, t.Past j v → s.Past j v := by
    rintro j v (hposted | ⟨rest, hrest⟩)
    · exact .inl hposted
    · rcases hcopy _ j rest hrest with hold | ⟨heq, rfl, _⟩
      · exact .inr ⟨rest, hold⟩
      · have hvw : v = w := congrArg Prod.snd heq
        rw [hvw]
        exact hpasti
  constructor
  · constructor
    · exact h.posted
    · exact h.flag
    · exact fun j hj v hv hp => h.past j hj v hv (hpast j v hp)
    · exact h.seen
    · intro j hj hlen v hv e' he' hwritten
      by_cases haddr : (c.getTmpChunkIdx j, e') = (c.getTmpChunkIdx i, e)
      · obtain ⟨hidx, rfl⟩ := Prod.mk.inj haddr
        have hji : j = i := by
          rcases Nat.lt_trichotomy j i with hlt | heq | hlt
          · have hlen' := h.unread ht hc hg hw hin hj hidx
              fun u hu => h.posted_of_past hi hw hpasti hlt hidx hu
            exact absurd hlen' (Nat.not_lt.mpr hlen)
          · exact heq
          · exact absurd (h.posted_of_past hj hv (hpast j v hwritten.past) hlt hidx.symm hw) hnot
        subst hji
        have hvalue : t.tmpRecvBuff (c.getTmpChunkIdx j, e') = chunk g (s.posts (g, w)) e' :=
          update_self ..
        rw [hvalue]
        unfold FwdState.content
        rw [show t.takenBy j = (g, s.posts (g, w)) from htaken]
      · have hsame : t.tmpRecvBuff (c.getTmpChunkIdx j, e') = s.tmpRecvBuff (c.getTmpChunkIdx j, e') :=
          update_of_ne haddr ..
        rw [hsame]
        refine h.buffer j hj hlen v hv e' he' ?_
        rcases hwritten with hposted | ⟨rest, hrest, hmem⟩
        · exact .inl hposted
        · rcases hcopy _ j rest hrest with hold | ⟨heq, rfl, rfl⟩
          · exact .inr ⟨rest, hold, hmem⟩
          · have hne : e' ≠ e := fun hee => haddr (by rw [hee])
            have hgroup : s.worker ((s.takenBy j).1, v) = .copy j (e :: rest) := heq ▸ hcopying
            refine .inr ⟨e :: rest, hgroup, ?_⟩
            rw [List.mem_cons, not_or]
            exact ⟨hne, hmem⟩
  · exact ⟨hc.length, hc.content, hc.reading⟩

theorem post
    (hcopying : s.worker (g, w) = .copy i []) :
    let t : FwdState β := { s.setWorker g w .next with
      posts := update s.posts (g, w) (s.posts (g, w) + 1)
      flags := update s.flags (c.getTmpChunkIdx i, w) .kPosted }
    Slots c chunk t ∧ Consumed c chunk t := by
  intro t
  have hin : s.InCopy g w i := ⟨_, hcopying⟩
  obtain ⟨hi, htaken, hnot⟩ := not_posted_of_inCopy ht hg hw hin
  have hposts : t.posts (g, w) = s.posts (g, w) + 1 := update_self ..
  have hcopy : ∀ p j rest, t.worker p = .copy j rest → s.worker p = .copy j rest := by
    intro p j rest hrest
    by_cases hp : p = (g, w)
    · have hself : t.worker (g, w) = .next := setWorker_self _
      rw [hp, hself] at hrest
      cases hrest
    · exact (setWorker_of_ne hp).symm.trans hrest
  have hPosted : ∀ j < s.remRecvSteps, ∀ v, t.Posted j v ↔ s.Posted j v ∨ j = i ∧ v = w := by
    intro j hj v
    by_cases hp : ((s.takenBy j).1, v) = (g, w)
    · obtain ⟨hgroup, rfl⟩ := Prod.mk.inj hp
      have hiff : t.Posted j v ↔ (s.takenBy j).2 < s.posts (g, v) + 1 := by
        unfold Posted
        rw [show t.takenBy j = s.takenBy j from rfl, hgroup, hposts]
      have hold : s.Posted j v ↔ (s.takenBy j).2 < s.posts (g, v) := by
        unfold Posted
        rw [hgroup]
      have heq : (s.takenBy j).2 = s.posts (g, v) ↔ j = i := by
        constructor
        · intro hk
          apply ht.injective hj hi
          rw [htaken, ← hk, ← hgroup]
        · rintro rfl
          rw [htaken]
      rw [hiff, hold, Nat.lt_succ_iff_lt_or_eq, heq]
      simp
    · have hne : ¬ (j = i ∧ v = w) := by
        rintro ⟨rfl, rfl⟩
        rw [htaken] at hp
        exact hp rfl
      have hsame : t.posts ((s.takenBy j).1, v) = s.posts ((s.takenBy j).1, v) := update_of_ne hp ..
      unfold Posted
      rw [show t.takenBy j = s.takenBy j from rfl, hsame]
      simp [hne]
  have hpast : ∀ j < s.remRecvSteps, ∀ v, t.Past j v → s.Past j v := by
    rintro j hj v (hposted | ⟨rest, hrest⟩)
    · rcases (hPosted j hj v).mp hposted with hold | ⟨rfl, rfl⟩
      · exact .inl hold
      · exact .inr (by rwa [htaken])
    · exact .inr ⟨rest, hcopy _ _ _ hrest⟩
  constructor
  · constructor
    · intro j hj v hv hposted hcleared
      by_cases haddr : (c.getTmpChunkIdx j, v) = (c.getTmpChunkIdx i, w)
      · rw [haddr]
        exact update_self ..
      · have hsame : t.flags (c.getTmpChunkIdx j, v) = s.flags (c.getTmpChunkIdx j, v) :=
          update_of_ne haddr ..
        rw [hsame]
        rcases (hPosted j hj v).mp hposted with hold | ⟨rfl, rfl⟩
        · exact h.posted j hj v hv hold hcleared
        · exact absurd rfl haddr
    · intro x v hv hx
      by_cases haddr : (x, v) = (c.getTmpChunkIdx i, w)
      · obtain ⟨rfl, rfl⟩ := Prod.mk.inj haddr
        refine ⟨i, hi, rfl, (hPosted i hi v).mpr (.inr ⟨rfl, rfl⟩), ?_⟩
        intro hcleared
        have hcleared : s.Cleared i v := hcleared
        exact hnot (h.seen v hv i (hcleared.seen v)).2
      · have hsame : t.flags (x, v) = s.flags (x, v) := update_of_ne haddr ..
        rw [hsame] at hx
        obtain ⟨j, hj, hidx, hposted, hcleared⟩ := h.flag x v hv hx
        exact ⟨j, hj, hidx, (hPosted j hj v).mpr (.inl hposted), hcleared⟩
    · exact fun j hj v hv hp => h.past j hj v hv (hpast j hj v hp)
    · intro v hv j hseen
      obtain ⟨hj, hposted⟩ := h.seen v hv j hseen
      exact ⟨hj, (hPosted j hj v).mpr (.inl hposted)⟩
    · rintro j hj hlen v hv e he (hposted | ⟨rest, hrest, hmem⟩)
      · rcases (hPosted j hj v).mp hposted with hold | ⟨rfl, rfl⟩
        · exact h.buffer j hj hlen v hv e he (.inl hold)
        · exact h.buffer j hj hlen v hv e he (.inr ⟨[], by rwa [htaken], List.not_mem_nil⟩)
      · exact h.buffer j hj hlen v hv e he (.inr ⟨rest, hcopy _ _ _ hrest, hmem⟩)
  · exact ⟨hc.length, hc.content, hc.reading⟩

end

end

end

end Slots
end FwdState
end TorchComms.AllToAllvDedup
