import TorchComms.CtranIb.NotifyImm
import TorchComms.CtranIb.Draining

/-! # Sender and receiver agree on the notifications of puts

The receiver takes the numbered work requests of each QP in order, but those of different QPs in
any order. It counts no notification too early and none twice, provided that it takes a fast put
only when everything numbered before it has been taken: a fast put does not say which number it has.
-/
namespace TorchComms.CtranIb

open Foundation Relation

namespace CtranIbVirtualConn

variable {t t' : CtranIbVirtualConn} {kind : OpKind}

/-! ### A connection that only puts -/

def OnlyPuts (t : CtranIbVirtualConn) : Prop := ∀ p ∈ t.wire, p.kind = .put

theorem OnlyPuts.postings (h : t.OnlyPuts) (hpost : ReflTransGen (Posting .put) t t') :
    t'.OnlyPuts := by
  induction hpost with
  | refl => exact h
  | tail _ hlast ih =>
    cases hlast with
    | robin i hi => exact ih
    | wqe i op rest hi hp =>
      intro p hpw
      rw [postWqe_wire, List.mem_append, List.mem_singleton] at hpw
      rcases hpw with hpw | rfl
      · exact ih p hpw
      · exact newWqe_kind ..

theorem OnlyPuts.postable (h : t.OnlyPuts) (hcons : t.Consistent) (a : OpArgs) (fast : Bool) :
    t.Postable (.iput a fast) := by
  cases fast with
  | true => trivial
  | false =>
    cases hwire : t.wire with
    | cons p rest =>
      have hp : p ∈ t.wire := by simp [hwire]
      exact Or.inr (Or.inl ⟨p, hp, h p hp⟩)
    | nil =>
      have hqps := VcConfig.getOpQps_pos t.cfg a.config
      have hload : ∀ q, t.load .put q = 0 := by
        intro q
        have hfast : (t.ops .put).fast = [] := by
          have hids := hcons.fasts .put
          rwa [hwire, List.filter_nil, List.map_nil, List.map_eq_nil_iff] at hids
        rw [load, hcons.queues q, hwire, hfast]
        split <;> rfl
      have hmsgs : 0 < t.opMaxMsgs a.config := by
        refine Nat.lt_min.mpr ⟨?_, t.cfg.maxQpMsgs_pos⟩
        cases a.config with
        | none => exact t.cfg.maxQpMsgs_pos
        | some config => exact config.qpMsgs_pos
      refine Or.inr (Or.inr ⟨t.qpIdxRR_, ?_, ?_⟩)
      · rw [opQps]
        cases hn : min (t.cfg.getOpQps a.config) t.cfg.maxNumQps_ with
        | zero => omega
        | succ n => exact List.mem_cons_self ..
      · rw [hload]
        exact hmsgs

theorem OnlyPuts.iput (h : t.OnlyPuts) (hsound : t.Sound) {a : OpArgs} {fast : Bool}
    (hstep : t.step (.iput a fast) = .ok t') : t'.OnlyPuts := by
  cases ha : a.ibRegElem with
  | none =>
    simp only [CtranIbVirtualConn.step, CtranIbVirtualConn.iput, issue, ha, Except.map,
      Except.ok.injEq] at hstep
    rwa [← hstep]
  | some lkeys =>
    cases fast with
    | true =>
      rcases issue_fast ha .put with ⟨_, hrun⟩ | ⟨_, hrun⟩
      · rw [CtranIbVirtualConn.step, CtranIbVirtualConn.iput, hrun] at hstep
        cases hstep
        intro p hp
        rw [fastPosted_wire, List.mem_append, List.mem_singleton] at hp
        rcases hp with hp | rfl
        · exact h p hp
        · exact newFast_kind ..
      · rw [CtranIbVirtualConn.step, CtranIbVirtualConn.iput, hrun] at hstep
        cases hstep
        exact h
    | false =>
      rcases issue_regular hsound ha .put with ⟨u, hrun, hpost, _⟩
      rw [CtranIbVirtualConn.step, CtranIbVirtualConn.iput, hrun] at hstep
      cases hstep
      exact OnlyPuts.postings (t := t.pushed .put a lkeys) h hpost

theorem OnlyPuts.dataCqe (h : t.OnlyPuts) (hsound : t.Sound) {qpIdx : ℕ}
    (hop : ∃ p ∈ t.wire, p.qpIdx = qpIdx) (hstep : t.step (.dataCqe qpIdx) = .ok t') :
    t'.OnlyPuts := by
  rcases find_of_wellFormed hop with ⟨p, hp, rfl⟩
  rcases dataCqe_spec hsound hp with ⟨t₁, t₂, u, hrun, htaking, hburn, _, _, hpost⟩
  rw [CtranIbVirtualConn.step, hrun] at hstep
  cases hstep
  rw [h p (List.mem_of_find?_eq_some hp)] at hburn hpost
  refine OnlyPuts.postings ?_ hpost
  intro p' hp'
  rw [wire_burnings hburn, taking_wire htaking] at hp'
  exact h p' (List.mem_of_mem_eraseP hp')

/-- What stays true of a sender that only puts. -/
structure Sending (t : CtranIbVirtualConn) : Prop where
  safe : t.Safe
  flowing : t.Flowing
  puts : t.OnlyPuts
  numbered : t.Numbered

theorem sending_init (cfg : VcConfig) : Sending { cfg := cfg } where
  safe := safe_init cfg
  flowing := flowing_init cfg
  puts _ h := nomatch h
  numbered := numbered_init cfg

theorem numbered_changes (hsafe : t.Safe) (h : t.Numbered) (hchanges : ReflTransGen Change t t') :
    t'.Numbered ∧ ∃ more, t'.numbered = t.numbered ++ more := by
  induction hchanges with
  | refl => exact ⟨h, [], (List.append_nil _).symm⟩
  | tail hinit hlast ih =>
    have hmid := hsafe.changes hinit
    rcases ih with ⟨hnumbered, more, hmore⟩
    rcases numbered_change hlast with ⟨more', hmore'⟩
    refine ⟨hnumbered.change hmid.sound hmid.known hlast, more ++ more', ?_⟩
    rw [hmore', hmore, List.append_assoc]

theorem Sending.step (h : t.Sending) {op : Op} (hop : (∃ a fast, op = .iput a fast) ∨
      ∃ qpIdx, op = .dataCqe qpIdx ∧ ∃ p ∈ t.wire, p.qpIdx = qpIdx) :
    ∃ t', t.step op = .ok t' ∧ t'.Sending ∧ ∃ more, t'.numbered = t.numbered ++ more := by
  have hsound := h.safe.sound
  have hallowed : Allowed [] t op := by
    rcases hop with ⟨a, fast, rfl⟩ | ⟨qpIdx, rfl, hp⟩
    · exact ⟨trivial, h.puts.postable hsound.toConsistent a fast⟩
    · exact ⟨hp, trivial⟩
  rcases step_spec hsound hallowed.1 with ⟨t', hstep, hchanges⟩
  rcases numbered_changes h.safe h.numbered hchanges with ⟨hnumbered, hmore⟩
  refine ⟨t', hstep, ⟨h.safe.changes hchanges, h.flowing.step hsound hallowed hstep, ?_, hnumbered⟩,
    hmore⟩
  rcases hop with ⟨a, fast, rfl⟩ | ⟨qpIdx, rfl, hp⟩
  · exact h.puts.iput hsound hstep
  · exact h.puts.dataCqe hsound hp hstep

end CtranIbVirtualConn

/-- The numbered work requests that the receiver has not taken yet, with their numbers, and how
many notifications its callers have taken. -/
structure NotifyLink where
  sender : CtranIbVirtualConn
  arriving : List (Posted × ℕ) := []
  receiver : NotifyState := {}
  consumed : ℕ := 0

namespace NotifyLink

/-- What the sender has posted is on its way to the receiver. -/
def send (s : NotifyLink) (t : CtranIbVirtualConn) : NotifyLink :=
  { s with
    sender := t
    arriving := s.arriving ++ t.numbered.zipIdx.drop s.sender.numbered.length }

/-- The receiver takes the oldest numbered work request of a QP. -/
def arrive (s : NotifyLink) (qpIdx : ℕ) : Except VcFault NotifyLink :=
  match s.arriving.find? (·.1.qpIdx = qpIdx) with
  | none => .error .noCompletion
  | some a => (s.receiver.writeImmRcvd qpIdx a.1.wr.immData).map fun receiver =>
      { s with receiver := receiver, arriving := s.arriving.eraseP (·.1.qpIdx = qpIdx) }

def take (s : NotifyLink) (r : ℕ × NotifyState) : NotifyLink :=
  { s with receiver := r.2, consumed := s.consumed + r.1 }

inductive Op where
  | iput (a : CtranIbVirtualConn.OpArgs) (fast : Bool)
  | writeCqe (qpIdx : ℕ)
  | arrive (qpIdx : ℕ)
  | checkNotify
  | checkNotifies (pendingNotifyCnt : ℕ)
deriving DecidableEq, Repr

def step (s : NotifyLink) : Op → Except VcFault NotifyLink
  | .iput a fast => (s.sender.step (.iput a fast)).map s.send
  | .writeCqe qpIdx => (s.sender.step (.dataCqe qpIdx)).map s.send
  | .arrive qpIdx => s.arrive qpIdx
  | .checkNotify => .ok (s.take s.receiver.checkNotify)
  | .checkNotifies n => .ok (s.take (s.receiver.checkNotifies n))

/-- The first number that the receiver has not taken. -/
def first (s : NotifyLink) : ℕ := (s.arriving.head?.map Prod.snd).getD s.sender.numbered.length

/-- The numbers from the first that the receiver has not taken are fewer than `2 ^ 24`. -/
def InWindow (s : NotifyLink) : Prop := s.sender.numbered.length - s.first < kSeqNumMask + 1

def WellFormed (_ : List Op) (s : NotifyLink) : Op → Prop
  | .writeCqe qpIdx => ∃ p ∈ s.sender.wire, p.qpIdx = qpIdx
  | .arrive qpIdx => (∃ a ∈ s.arriving, a.1.qpIdx = qpIdx) ∧ s.InWindow
  | _ => True

/-- A fast put is taken when everything with a smaller number has been. -/
def InTurn (s : NotifyLink) : Op → Prop
  | .arrive qpIdx => ∀ a ∈ s.arriving.find? (·.1.qpIdx = qpIdx), a.1.fast → a.2 = s.first
  | _ => True

def Allowed (past : List Op) (s : NotifyLink) (op : Op) : Prop :=
  WellFormed past s op ∧ s.InTurn op

/-! ### What the receiver has seen -/

/-- The numbers that the receiver has taken. -/
def taken (s : NotifyLink) : Set ℕ := {n | n < s.sender.numbered.length ∧ ∀ a ∈ s.arriving, a.2 ≠ n}

/-- Which numbers end a put with notification. -/
def tag (t : CtranIbVirtualConn) (n : ℕ) : Bool := ((t.numbered[n]?).map Posted.notifies).getD false

structure Coherent (s : NotifyLink) : Prop where
  sending : s.sender.Sending
  sorted : s.arriving.Pairwise fun a b => a.2 < b.2
  entries : ∀ a ∈ s.arriving, s.sender.numbered[a.2]? = some a.1
  holds : s.receiver.Holds (tag s.sender) s.taken s.first
  count : s.receiver.notifyCount_ + s.consumed = ((List.range s.first).map (tag s.sender)).count true

theorem coherent_init (cfg : VcConfig) : Coherent { sender := { cfg := cfg } } where
  sending := CtranIbVirtualConn.sending_init cfg
  sorted := List.Pairwise.nil
  entries _ h := nomatch h
  holds := by
    have hnone : taken { sender := { cfg := cfg } } = ∅ := by
      ext n
      simp [taken, CtranIbVirtualConn.numbered]
    rw [hnone]
    exact ReorderBuffer.holds_init ..
  count := rfl

variable {s s' : NotifyLink}

theorem first_eq {r : ℕ} (hsorted : s.arriving.Pairwise fun a b => a.2 < b.2)
    (hentries : ∀ a ∈ s.arriving, s.sender.numbered[a.2]? = some a.1)
    (hbelow : ∀ n < r, n ∈ s.taken) (hmiss : r ∉ s.taken) : s.first = r := by
  have hle : r ≤ s.sender.numbered.length := by
    cases r with
    | zero => exact Nat.zero_le _
    | succ r => exact (hbelow r (Nat.lt_succ_self r)).1
  cases harr : s.arriving with
  | nil =>
    have hfirst : s.first = s.sender.numbered.length := by simp [first, harr]
    rw [hfirst]
    by_contra hne
    exact hmiss ⟨Nat.lt_of_le_of_ne hle (Ne.symm hne), by simp [harr]⟩
  | cons a rest =>
    have hfirst : s.first = a.2 := by simp [first, harr]
    rw [hfirst]
    have hget := hentries a (by simp [harr])
    have hlt : a.2 < s.sender.numbered.length := (List.getElem?_eq_some_iff.mp hget).1
    rw [harr, List.pairwise_cons] at hsorted
    have hnot : a.2 ∉ s.taken := fun hmem => hmem.2 a (by simp [harr]) rfl
    by_contra hne
    rcases Nat.lt_or_gt_of_ne hne with hless | hgreater
    · exact hnot (hbelow _ hless)
    · apply hmiss
      refine ⟨Nat.lt_trans hgreater hlt, fun b hb heq => ?_⟩
      rw [harr, List.mem_cons] at hb
      rcases hb with rfl | hb
      · omega
      · have hab := hsorted.1 b hb
        omega

theorem first_le (hentries : ∀ a ∈ s.arriving, s.sender.numbered[a.2]? = some a.1) :
    s.first ≤ s.sender.numbered.length := by
  cases harr : s.arriving with
  | nil => simp [first, harr]
  | cons a rest =>
    have hget := hentries a (by simp [harr])
    have hlt : a.2 < s.sender.numbered.length := (List.getElem?_eq_some_iff.mp hget).1
    simpa [first, harr] using Nat.le_of_lt hlt

/-! ### The steps of the sender -/

variable {n : ℕ} {receiver : NotifyState} {more : List Posted} {p : Posted}

theorem tag_of_append {t t' : CtranIbVirtualConn}
    (h : t'.numbered = t.numbered ++ more) (hn : n < t.numbered.length) : tag t' n = tag t n := by
  rw [tag, tag, h, List.getElem?_append_left hn]

variable {a : Posted × ℕ}

theorem mem_newly {l more : List Posted}
    (h : a ∈ (l ++ more).zipIdx.drop l.length) : l.length ≤ a.2 ∧ (l ++ more)[a.2]? = some a.1 := by
  rcases List.mem_iff_getElem?.mp h with ⟨i, hi⟩
  rw [List.getElem?_drop, List.getElem?_zipIdx, Option.map_eq_some_iff] at hi
  rcases hi with ⟨p, hp, rfl⟩
  exact ⟨by simp, by simpa using hp⟩

theorem sorted_newly (l : List Posted) (n : ℕ) :
    (l.zipIdx.drop n).Pairwise fun a b => a.2 < b.2 := by
  have hall : (l.zipIdx.map Prod.snd).Pairwise (· < ·) := by
    rw [List.zipIdx_map_snd]
    exact List.pairwise_lt_range'
  rw [List.pairwise_map] at hall
  exact hall.sublist (List.drop_sublist n _)

theorem head?_newly (l more : List Posted) :
    (((l ++ more).zipIdx.drop l.length).head?.map Prod.snd).getD (l ++ more).length = l.length := by
  rw [List.head?_drop, List.getElem?_zipIdx]
  cases more with
  | nil => simp
  | cons p more => simp

theorem Coherent.send (h : s.Coherent) {t : CtranIbVirtualConn}
    (hsending : t.Sending) (happend : t.numbered = s.sender.numbered ++ more) :
    (s.send t).Coherent := by
  have hfirst : (s.send t).first = s.first := by
    cases harr : s.arriving with
    | nil =>
      have hnew := head?_newly s.sender.numbered more
      rw [← happend] at hnew
      simpa [first, CtranIbVirtualConn.numbered, NotifyLink.send, harr] using hnew
    | cons a rest => simp [first, NotifyLink.send, harr]
  have htaken : ∀ n, n ∈ (s.send t).taken ↔ n ∈ s.taken := by
    intro n
    constructor
    · rintro ⟨hlt, hnot⟩
      refine ⟨?_, fun a ha => hnot a (List.mem_append_left _ ha)⟩
      by_contra hge
      have hlt' : n < t.numbered.length := hlt
      apply hnot (t.numbered[n], n)
      · apply List.mem_append_right
        rw [List.mem_iff_getElem?]
        refine ⟨n - s.sender.numbered.length, ?_⟩
        rw [List.getElem?_drop, List.getElem?_zipIdx, Nat.add_sub_cancel' (Nat.le_of_not_lt hge),
          List.getElem?_eq_getElem hlt']
        simp
      · rfl
    · rintro ⟨hlt, hnot⟩
      refine ⟨?_, fun a ha => ?_⟩
      · change n < t.numbered.length
        rw [happend, List.length_append]
        omega
      · rcases List.mem_append.mp ha with ha | ha
        · exact hnot a ha
        · rw [happend] at ha
          have hge := (mem_newly ha).1
          omega
  have hle := first_le h.entries
  exact {
    sending := hsending
    sorted := by
      change (s.arriving ++ _).Pairwise _
      rw [List.pairwise_append]
      refine ⟨h.sorted, sorted_newly .., fun a ha b hb => ?_⟩
      rw [happend] at hb
      have hlt := (List.getElem?_eq_some_iff.mp (h.entries a ha)).1
      exact Nat.lt_of_lt_of_le hlt (mem_newly hb).1
    entries := by
      intro a ha
      rcases List.mem_append.mp ha with ha | ha
      · change t.numbered[a.2]? = some a.1
        rw [happend, List.getElem?_append_left (List.getElem?_eq_some_iff.mp (h.entries a ha)).1]
        exact h.entries a ha
      · rw [happend] at ha
        change t.numbered[a.2]? = some a.1
        rw [happend]
        exact (mem_newly ha).2
    holds := by
      rw [hfirst]
      apply ReorderBuffer.Holds.congr h.holds htaken
      intro n hn
      exact tag_of_append happend hn.1
    count := by
      rw [hfirst]
      change s.receiver.notifyCount_ + s.consumed = _
      rw [h.count]
      congr 1
      apply List.map_congr_left
      intro n hn
      rw [List.mem_range] at hn
      exact (tag_of_append happend (Nat.lt_of_lt_of_le hn hle)).symm }

/-! ### The steps of the receiver -/

theorem range_map_count (f : ℕ → Bool) (r n : ℕ) :
    ((List.range (r + n)).map f).count true =
      ((List.range r).map f).count true + ((List.range' r n).map f).count true := by
  rw [List.range_eq_range', ← List.range'_append_1, List.map_append, List.count_append,
    ← List.range_eq_range', Nat.zero_add]

theorem tag_eq {t : CtranIbVirtualConn} (h : t.numbered[n]? = some p) : tag t n = p.notifies := by
  rw [tag, h]
  rfl

/-- The receiver takes one work request, and with it what waited for it. -/
theorem Coherent.taking (h : s.Coherent) (hfind : s.arriving.find? (·.1.qpIdx = a.1.qpIdx) = some a)
    (hholds : receiver.Holds (tag s.sender) (insert a.2 s.taken) (s.first + n))
    (hmiss : s.first + n ∉ insert a.2 s.taken)
    (hcount : receiver.notifyCount_ = s.receiver.notifyCount_ +
      ((List.range' s.first n).map (tag s.sender)).count true) :
    Coherent { s with
      receiver := receiver
      arriving := s.arriving.eraseP (·.1.qpIdx = a.1.qpIdx) } := by
  rcases split_of_find? hfind with ⟨before, after, harr, -, -, herase⟩
  have hsorted := h.sorted
  rw [harr, List.pairwise_append, List.pairwise_cons] at hsorted
  have hmem : a ∈ s.arriving := by simp [harr]
  have hlt := (List.getElem?_eq_some_iff.mp (h.entries a hmem)).1
  have htaken : ∀ m, m < s.sender.numbered.length ∧
      (∀ b ∈ s.arriving.eraseP (·.1.qpIdx = a.1.qpIdx), b.2 ≠ m) ↔ m ∈ insert a.2 s.taken := by
    intro m
    rw [herase, Set.mem_insert_iff]
    constructor
    · rintro ⟨hm, hnot⟩
      by_cases heq : m = a.2
      · exact Or.inl heq
      · refine Or.inr ⟨hm, fun b hb => ?_⟩
        rw [harr, List.mem_append, List.mem_cons] at hb
        rcases hb with hb | rfl | hb
        · exact hnot b (List.mem_append_left _ hb)
        · exact Ne.symm heq
        · exact hnot b (List.mem_append_right _ hb)
    · rintro (rfl | ⟨hm, hnot⟩)
      · refine ⟨hlt, fun b hb => ?_⟩
        rcases List.mem_append.mp hb with hb | hb
        · exact Nat.ne_of_lt (hsorted.2.2 b hb a (List.mem_cons_self ..))
        · exact Nat.ne_of_gt (hsorted.2.1.1 b hb)
      · refine ⟨hm, fun b hb => hnot b ?_⟩
        rw [harr, List.mem_append, List.mem_cons]
        rcases List.mem_append.mp hb with hb | hb
        · exact Or.inl hb
        · exact Or.inr (Or.inr hb)
  have hsorted' : (s.arriving.eraseP (·.1.qpIdx = a.1.qpIdx)).Pairwise fun a b => a.2 < b.2 :=
    h.sorted.sublist (List.eraseP_sublist ..)
  have hentries' : ∀ b ∈ s.arriving.eraseP (·.1.qpIdx = a.1.qpIdx),
      s.sender.numbered[b.2]? = some b.1 := fun b hb => h.entries b (List.mem_of_mem_eraseP hb)
  have hfirst : first { s with
      receiver := receiver
      arriving := s.arriving.eraseP (·.1.qpIdx = a.1.qpIdx) } = s.first + n := by
    apply first_eq hsorted' hentries'
    · exact fun m hm => (htaken m).mpr (hholds.below m hm)
    · exact fun hm => hmiss ((htaken _).mp hm)
  exact {
    sending := h.sending
    sorted := hsorted'
    entries := hentries'
    holds := by
      rw [hfirst]
      exact ReorderBuffer.Holds.congr hholds htaken fun _ _ => rfl
    count := by
      rw [hfirst, range_map_count, ← h.count]
      change receiver.notifyCount_ + s.consumed = _
      rw [hcount, Nat.add_right_comm] }

theorem arrive_eq
    (hfind : s.arriving.find? (·.1.qpIdx = a.1.qpIdx) = some a)
    (hrun : s.receiver.writeImmRcvd a.1.qpIdx a.1.wr.immData = .ok receiver) :
    s.arrive a.1.qpIdx = .ok { s with
      receiver := receiver
      arriving := s.arriving.eraseP (·.1.qpIdx = a.1.qpIdx) } := by
  simp [NotifyLink.arrive, hfind, hrun, Except.map]

theorem Coherent.arrive (h : s.Coherent) {qpIdx : ℕ}
    (hop : (∃ a ∈ s.arriving, a.1.qpIdx = qpIdx) ∧ s.InWindow)
    (hturn : ∀ a ∈ s.arriving.find? (·.1.qpIdx = qpIdx), a.1.fast → a.2 = s.first) :
    ∃ s', s.arrive qpIdx = .ok s' ∧ s'.Coherent := by
  rcases hop with ⟨⟨b, hb, hq⟩, hwindow⟩
  rcases exists_find? (fun a : Posted × ℕ => decide (a.1.qpIdx = qpIdx)) hb (decide_eq_true hq) with
    ⟨a, hfind, hown⟩
  have hqp : a.1.qpIdx = qpIdx := of_decide_eq_true hown
  subst hqp
  have hmem : a ∈ s.arriving := List.mem_of_find?_eq_some hfind
  have hget := h.entries a hmem
  have hlt := (List.getElem?_eq_some_iff.mp hget).1
  have hnumbered : a.1 ∈ s.sender.numbered := List.mem_of_getElem? hget
  have hnew : a.2 ∉ s.taken := fun hm => hm.2 a hmem rfl
  have htag := tag_eq hget
  cases hfast : a.1.fast with
  | false =>
    have hwin : a.2 < s.first + (kSeqNumMask + 1) := by
      have hle := first_le h.entries
      rw [InWindow] at hwindow
      omega
    rcases h.holds.writeImmRcvd_seq hnew hwin a.1.qpIdx with ⟨n, r, hrun, hholds, hmiss, hcount⟩
    rw [htag, ← h.sending.numbered.regular a.2 a.1 hget hfast] at hrun
    exact ⟨_, arrive_eq hfind hrun, h.taking hfind hholds hmiss hcount⟩
  | true =>
    have hfirst := hturn a hfind hfast
    rw [hfirst] at hnew
    rcases h.holds.writeImmRcvd_fast hnew with ⟨n, r, hrun, hholds, hmiss, hcount⟩
    rcases h.sending.numbered.fast a.1 hnumbered hfast with ⟨himm, hzero⟩
    have hrun' : s.receiver.writeImmRcvd a.1.qpIdx a.1.wr.immData = .ok r := by
      rw [hzero, himm, ← htag, hfirst]
      exact hrun
    refine ⟨_, arrive_eq hfind hrun', h.taking hfind ?_ ?_ hcount⟩
    · rw [hfirst]
      exact hholds
    · rw [hfirst]
      exact hmiss

theorem Coherent.take (h : s.Coherent) {r : ℕ × NotifyState} (hnext : r.2.rcvNxt_ = s.receiver.rcvNxt_)
    (hheld : r.2.rcvdSeqNums_ = s.receiver.rcvdSeqNums_)
    (hcount : r.2.notifyCount_ + r.1 = s.receiver.notifyCount_) : (s.take r).Coherent where
  __ := h
  holds := by
    change NotifyState.Holds r.2 _ _ _
    rw [NotifyState.Holds, hnext, hheld]
    exact h.holds
  count := by
    change r.2.notifyCount_ + (s.consumed + r.1) = _
    have hsame := h.count
    rw [← hcount] at hsame
    rw [← Nat.add_assoc, Nat.add_right_comm]
    exact hsame

theorem Coherent.step (h : s.Coherent) {past : List Op} {op : Op} (hop : Allowed past s op) :
    ∃ s', s.step op = .ok s' ∧ s'.Coherent := by
  have hsend : ∀ {o : CtranIbVirtualConn.Op} {t : CtranIbVirtualConn}, s.sender.step o = .ok t →
      t.Sending ∧ (∃ more, t.numbered = s.sender.numbered ++ more) →
      ∃ s', (s.sender.step o).map s.send = .ok s' ∧ s'.Coherent := by
    rintro o t hrun ⟨hsending, more, hmore⟩
    exact ⟨s.send t, by rw [hrun]; rfl, h.send hsending hmore⟩
  cases op with
  | iput a fast =>
    rcases h.sending.step (Or.inl ⟨a, fast, rfl⟩) with ⟨t, hrun, hrest⟩
    exact hsend hrun hrest
  | writeCqe qpIdx =>
    rcases h.sending.step (Or.inr ⟨qpIdx, rfl, hop.1⟩) with ⟨t, hrun, hrest⟩
    exact hsend hrun hrest
  | arrive qpIdx => exact h.arrive hop.1 hop.2
  | checkNotify =>
    refine ⟨_, rfl, h.take ?_ ?_ ?_⟩ <;> unfold NotifyState.checkNotify <;> split
    all_goals first | rfl | skip
    · rename_i hpos
      exact Nat.sub_add_cancel hpos
  | checkNotifies n =>
    refine ⟨_, rfl, h.take rfl rfl ?_⟩
    exact Nat.sub_add_cancel (Nat.min_le_left ..)

/-! ### Runs -/

/-- The data of a put has been processed, and so has all the numbered data from before it. -/
def Ready (s : NotifyLink) (i : Issued) : Prop :=
  (∀ op ∈ (s.sender.ops .put).pending, CtranIbVirtualConn.sequenced op → i.id < op.id) ∧
    ∀ a ∈ s.arriving, i.id < a.1.id

instance (s : NotifyLink) (i : Issued) : Decidable (s.Ready i) :=
  inferInstanceAs (Decidable (_ ∧ _))

/-- The puts that were issued and whose notification comes with their data. -/
def notifyPuts (s : NotifyLink) : List Issued := s.sender.issued.filter Issued.withImm

theorem tags_eq (t : CtranIbVirtualConn) (h : n ≤ t.numbered.length) :
    (List.range n).map (tag t) = (t.numbered.take n).map Posted.notifies := by
  apply List.ext_getElem
  · simp [Nat.min_eq_left h]
  · intro k hk hk'
    have hlt : k < t.numbered.length := by
      rw [List.length_map, List.length_range] at hk
      exact Nat.lt_of_lt_of_le hk h
    simp [tag, List.getElem?_eq_getElem hlt]

theorem Coherent.count_eq (h : s.Coherent) : s.receiver.notifyCount_ + s.consumed =
    ((s.sender.numbered.take s.first).filter Posted.notifies).length := by
  rw [h.count, tags_eq _ (first_le h.entries), List.count_eq_countP, List.countP_map,
    List.countP_eq_length_filter]
  congr 2
  ext p
  simp

theorem Coherent.ready (h : s.Coherent) (hp : p ∈ s.sender.numbered.take s.first)
    (hnotifies : p.notifies) {i : Issued} (hid : i.id = p.id) : s.Ready i := by
  rcases List.mem_iff_getElem?.mp hp with ⟨n, hn⟩
  rw [List.getElem?_take] at hn
  split at hn
  · rename_i hfirst
    constructor
    · intro op hop _
      rw [hid]
      exact (h.sending.numbered.bound p (List.mem_of_getElem? hn) op hop).2 hnotifies
    · intro a ha
      have hle : s.first ≤ a.2 := by
        have hsorted := h.sorted
        cases harr : s.arriving with
        | nil =>
          rw [harr] at ha
          cases ha
        | cons b rest =>
          have hhead : s.first = b.2 := by simp [first, harr]
          rw [harr, List.pairwise_cons] at hsorted
          rw [harr, List.mem_cons] at ha
          rw [hhead]
          rcases ha with rfl | ha
          · exact Nat.le_refl _
          · exact Nat.le_of_lt (hsorted.1 a ha)
      rcases List.getElem?_eq_some_iff.mp hn with ⟨hlt, rfl⟩
      rcases List.getElem?_eq_some_iff.mp (h.entries a ha) with ⟨hlt', heq⟩
      have hordered := List.pairwise_iff_getElem.mp h.sending.numbered.ordered n a.2 hlt hlt'
        (Nat.lt_of_lt_of_le hfirst hle)
      rw [hid, ← heq]
      exact hordered.2 hnotifies
  · cases hn

theorem Coherent.not_early (h : s.Coherent) :
    s.receiver.notifyCount_ + s.consumed ≤ s.notifyPuts.countP fun i => s.Ready i := by
  have hids := h.sending.numbered.ids
  have hsplit : s.sender.numbered.filter Posted.notifies =
      (s.sender.numbered.take s.first).filter Posted.notifies ++
        (s.sender.numbered.drop s.first).filter Posted.notifies := by
    rw [← List.filter_append, List.take_append_drop]
  rw [hsplit, List.map_append, List.append_assoc] at hids
  have hlength := congrArg List.length hids
  rw [List.length_map, List.length_append, List.length_map] at hlength
  have hready : ∀ i ∈ s.notifyPuts.take (s.receiver.notifyCount_ + s.consumed), s.Ready i := by
    intro i hi
    have hmem : i.id ∈ (s.notifyPuts.take (s.receiver.notifyCount_ + s.consumed)).map (·.id) :=
      List.mem_map_of_mem hi
    rw [List.map_take, notifyPuts, hids, h.count_eq, List.take_left' (List.length_map ..)] at hmem
    rcases List.mem_map.mp hmem with ⟨p, hp, hid⟩
    rcases List.mem_filter.mp hp with ⟨hp, hnotifies⟩
    exact h.ready hp hnotifies hid.symm
  calc s.receiver.notifyCount_ + s.consumed
      = (s.notifyPuts.take (s.receiver.notifyCount_ + s.consumed)).length := by
        rw [List.length_take, Nat.min_eq_left]
        rw [notifyPuts, hlength, h.count_eq]
        exact Nat.le_add_right ..
    _ = (s.notifyPuts.take (s.receiver.notifyCount_ + s.consumed)).countP fun i => s.Ready i := by
        rw [eq_comm, List.countP_eq_length]
        exact fun i hi => decide_eq_true (hready i hi)
    _ ≤ s.notifyPuts.countP fun i => s.Ready i := List.Sublist.countP_le (List.take_sublist ..)

theorem Coherent.complete (h : s.Coherent) (hwire : s.sender.wire = []) (harr : s.arriving = []) :
    s.receiver.notifyCount_ + s.consumed = s.notifyPuts.length := by
  have hpend : (s.sender.ops .put).pending = [] := by
    by_contra hne
    rcases h.sending.flowing.served .put hne with ⟨p, hp, _⟩
    rw [hwire] at hp
    cases hp
  have hfirst : s.first = s.sender.numbered.length := by simp [first, harr]
  have hlength := congrArg List.length h.sending.numbered.ids
  rw [hpend, List.filter_nil, List.map_nil, List.append_nil, List.length_map, List.length_map]
    at hlength
  rw [h.count_eq, hfirst, List.take_length, notifyPuts, hlength]

theorem agreement_of_inTurn (cfg : VcConfig) (ops : List Op)
    (hadm : Admissible step Allowed [] { sender := { cfg := cfg } } ops) :
    ∃ s, run step { sender := { cfg := cfg } } ops = .ok s ∧
      s.receiver.notifyCount_ + s.consumed ≤ (s.notifyPuts.countP fun i => s.Ready i) ∧
      (s.sender.wire = [] → s.arriving = [] →
        s.receiver.notifyCount_ + s.consumed = s.notifyPuts.length) := by
  have hrun := run_invariant (fun _ s => s.Coherent) (fun _ _ _ h hop => h.step hop) ops
    (coherent_init cfg) hadm
  rcases hrun with ⟨s, hs, hcoherent⟩
  exact ⟨s, hs, hcoherent.not_early, hcoherent.complete⟩

instance (past : List Op) (s : NotifyLink) (op : Op) : Decidable (WellFormed past s op) :=
  match op with
  | .writeCqe qpIdx => inferInstanceAs (Decidable (∃ p ∈ s.sender.wire, p.qpIdx = qpIdx))
  | .arrive qpIdx => inferInstanceAs (Decidable ((∃ a ∈ s.arriving, a.1.qpIdx = qpIdx) ∧
      s.sender.numbered.length - s.first < kSeqNumMask + 1))
  | .iput .. | .checkNotify | .checkNotifies _ => isTrue trivial

instance (s : NotifyLink) (op : Op) : Decidable (s.InTurn op) :=
  match op with
  | .arrive qpIdx => inferInstanceAs (Decidable (∀ a ∈ s.arriving.find? (·.1.qpIdx = qpIdx),
      a.1.fast → a.2 = s.first))
  | .iput .. | .writeCqe _ | .checkNotify | .checkNotifies _ => isTrue trivial

instance (past : List Op) (s : NotifyLink) (op : Op) : Decidable (Allowed past s op) :=
  inferInstanceAs (Decidable (_ ∧ _))

/-- The second half of a put comes before the first, and a fast put after both. -/
theorem agreement_of_inTurn_twoDevices :
    ∃ s, run step { sender := { cfg := twoDevices } }
        [.iput ⟨0, 0, 8192, some [1, 1], [2, 2], true, none, none⟩ false, .arrive 1, .checkNotify,
          .arrive 0, .writeCqe 1, .writeCqe 0, .checkNotify,
          .iput ⟨0, 0, 16, some [1, 1], [2, 2], true, none, none⟩ true, .arrive 0,
          .checkNotifies 3] = .ok s ∧
      s.receiver.notifyCount_ + s.consumed ≤ (s.notifyPuts.countP fun i => s.Ready i) ∧
      (s.sender.wire = [] → s.arriving = [] →
        s.receiver.notifyCount_ + s.consumed = s.notifyPuts.length) :=
  agreement_of_inTurn twoDevices _ (by decide)

/-- The receiver takes a fast put before it has polled the second half of the put before it. -/
def overtaken : List Op :=
  [.iput ⟨0, 0, 8192, some [1, 1], [2, 2], true, none, none⟩ false, .writeCqe 0, .writeCqe 1,
    .arrive 0, .iput ⟨0, 0, 16, some [1, 1], [2, 2], true, none, none⟩ true, .arrive 0]

/-- The fast put's notification is counted too early. -/
theorem not_agreement_of_wellFormed :
    ¬ ∀ (cfg : VcConfig) (ops : List Op),
      Admissible step WellFormed [] { sender := { cfg := cfg } } ops →
      ∃ s, run step { sender := { cfg := cfg } } ops = .ok s ∧
        s.receiver.notifyCount_ + s.consumed ≤ (s.notifyPuts.countP fun i => s.Ready i) ∧
        (s.sender.wire = [] → s.arriving = [] →
          s.receiver.notifyCount_ + s.consumed = s.notifyPuts.length) := by
  intro h
  rcases h twoDevices overtaken (by decide) with ⟨s, hrun, hearly, _⟩
  have hstate : (run step { sender := { cfg := twoDevices } } overtaken).toOption.map
      (fun s => (s.receiver.notifyCount_ + s.consumed, s.notifyPuts.countP fun i => s.Ready i)) =
        some (1, 0) := by decide
  simp only [hrun, Except.toOption, Option.map_some, Option.some.injEq, Prod.mk.injEq] at hstate
  rw [hstate.1, hstate.2] at hearly
  cases hearly

/-- The other one is never counted. -/
example : (run step { sender := { cfg := twoDevices } } (overtaken ++ [.arrive 1, .writeCqe 0])).toOption.map
    (fun s => (s.sender.wire, s.arriving, s.receiver.notifyCount_ + s.consumed,
      s.notifyPuts.length)) = some ([], [], 1, 2) := by decide

end NotifyLink
end TorchComms.CtranIb
