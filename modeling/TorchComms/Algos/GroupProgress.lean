import TorchComms.Algos.GroupOrder

/-! # Progress of grouped operations

What a rank has asked of its peers, offered to them, put and heard is at any time a prefix of what
its commands hold. Where every rank is blocked, a blocked rank waits for one whose command is on a
lower level.
-/
namespace TorchComms.Algos.GroupSendRecv

open Function

/-! ### The operations of the first commands -/

section UpTo

variable {f : List GroupOp → List GroupOp} {cmds : List (List GroupOp)} {e k : ℕ} {op : GroupOp}

def upTo (f : List GroupOp → List GroupOp) (cmds : List (List GroupOp)) (e : ℕ) : List GroupOp :=
  (cmds.take e).flatMap f

theorem upTo_succ (hf : f [] = []) :
    upTo f cmds (e + 1) = upTo f cmds e ++ f (cmds[e]?.getD []) := by
  rw [upTo, upTo, List.take_add_one, List.flatMap_append]
  cases hc : cmds[e]? with
  | none => simp [hf]
  | some c => simp

theorem upTo_all : upTo f cmds cmds.length = cmds.flatMap f := by
  rw [upTo, List.take_length]

/-- The operations with one peer. -/
def withPeer (b : ℕ) (l : List GroupOp) : List GroupOp := l.filter fun op => op.peerRank = b

theorem withPeer_append (b : ℕ) (l l' : List GroupOp) :
    withPeer b (l ++ l') = withPeer b l ++ withPeer b l' := List.filter_append _ _

theorem withPeer_self (op : GroupOp) : withPeer op.peerRank [op] = [op] := by
  simp [withPeer]

theorem withPeer_ne {b : ℕ} (h : b ≠ op.peerRank) : withPeer b [op] = [] := by
  simp [withPeer, Ne.symm h]

theorem withPeer_split (b e : ℕ) : withPeer b (cmds.flatMap f) =
    withPeer b (upTo f cmds e) ++ withPeer b ((cmds.drop e).flatMap f) := by
  rw [upTo, ← withPeer_append, ← List.flatMap_append, List.take_append_drop]

theorem exists_later {b : ℕ} (h : (withPeer b (cmds.flatMap f))[k]? = some op)
    (hk : (withPeer b (upTo f cmds e)).length ≤ k) : ∃ j, e ≤ j ∧ op ∈ f (cmds[j]?.getD []) := by
  rw [withPeer_split b e, List.getElem?_append_right hk] at h
  have hmem := List.mem_of_mem_filter (List.mem_of_getElem? h)
  obtain ⟨c, hc, hop⟩ := List.mem_flatMap.mp hmem
  obtain ⟨i, hi⟩ := List.getElem?_of_mem hc
  rw [List.getElem?_drop] at hi
  refine ⟨e + i, Nat.le_add_right _ _, ?_⟩
  rw [hi]
  exact hop

theorem exists_earlier (h : op ∈ upTo f cmds e) : ∃ j, j < e ∧ op ∈ f (cmds[j]?.getD []) := by
  obtain ⟨c, hc, hop⟩ := List.mem_flatMap.mp h
  obtain ⟨i, hi⟩ := List.getElem?_of_mem hc
  rw [List.getElem?_take] at hi
  have hlt : i < e := by
    by_contra hge
    rw [if_neg hge] at hi
    cases hi
  rw [if_pos hlt] at hi
  refine ⟨i, hlt, ?_⟩
  rw [hi]
  exact hop

end UpTo

/-! ### One rank -/

namespace Gpe

variable (cmds : List (List GroupOp)) (g : Gpe)

def current : List GroupOp := cmds[g.executed]?.getD []

/-- The sends whose control message has been asked for. -/
def asked : List GroupOp :=
  upTo sendsOf cmds g.executed ++
    match g.phase with
    | .recvCtrls i => (sendsOf (g.current cmds)).take i
    | _ => sendsOf (g.current cmds)

/-- The receives whose control message has been sent. -/
def offered : List GroupOp :=
  upTo recvsOf cmds g.executed ++
    match g.phase with
    | .recvCtrls _ => []
    | .sendCtrls i => (recvsOf (g.current cmds)).take i
    | _ => recvsOf (g.current cmds)

/-- The sends that must have been put. -/
def settled : List GroupOp :=
  upTo sendsOf cmds g.executed ++
    match g.phase with
    | .waiting _ => sendsOf (g.current cmds)
    | _ => []

/-- The receives whose notification has been taken. -/
def heard : List GroupOp :=
  upTo recvsOf cmds g.executed ++
    match g.phase with
    | .waiting i => (recvsOf (g.current cmds)).take i
    | _ => []

def bounded : Prop :=
  match g.phase with
  | .recvCtrls i => i ≤ (sendsOf (g.current cmds)).length
  | .sendCtrls i | .waiting i => i ≤ (recvsOf (g.current cmds)).length
  | .putting => True

end Gpe

/-- What holds of one rank, with the requests it has made, the control messages it has sent, its
puts and the notifications it has taken. -/
structure Own (cmds : List (List GroupOp)) (g : Gpe) (irecvs isends : ℕ → List GroupOp)
    (puts : List GroupOp) (notified : ℕ → ℕ) : Prop where
  executed_le : g.executed ≤ g.submitted
  submitted_le : g.submitted ≤ cmds.length
  bounded : g.bounded cmds
  irecvs : ∀ b, irecvs b = withPeer b (g.asked cmds)
  isends : ∀ b, isends b = withPeer b (g.offered cmds)
  nodup : puts.Nodup
  settled : ∀ op ∈ g.settled cmds, op ∈ puts
  notified : ∀ b, notified b = (withPeer b (g.heard cmds)).length

section Own

variable {cmds : List (List GroupOp)} {g : Gpe} {irecvs isends : ℕ → List GroupOp}
  {puts : List GroupOp} {notified : ℕ → ℕ} {i : ℕ} {op : GroupOp}

theorem own_initial : Own cmds ⟨0, 0, .recvCtrls 0⟩ (fun _ => []) (fun _ => []) [] fun _ => 0 where
  executed_le := Nat.le_refl _
  submitted_le := Nat.zero_le _
  bounded := Nat.zero_le _
  irecvs _ := rfl
  isends _ := rfl
  nodup := List.nodup_nil
  settled _ h := h
  notified _ := rfl

variable {l : List GroupOp}

theorem withPeer_concat {lists : ℕ → List GroupOp} (h : ∀ b, lists b = withPeer b l) (b : ℕ) :
    update lists op.peerRank (lists op.peerRank ++ [op]) b = withPeer b (l ++ [op]) := by
  rw [withPeer_append]
  by_cases hb : b = op.peerRank
  · rw [hb, update_self, withPeer_self, h]
  · rw [update_of_ne hb, withPeer_ne hb, List.append_nil, h]

theorem take_concat (h : l[i]? = some op) : l.take (i + 1) = l.take i ++ [op] := by
  rw [List.take_add_one, h]
  rfl

theorem lt_of_getElem? (h : l[i]? = some op) : i + 1 ≤ l.length :=
  (List.getElem?_eq_some_iff.mp h).1

section

variable (h : Own cmds g irecvs isends puts notified)
include h

theorem Own.submit (hlt : g.submitted < cmds.length) :
    Own cmds { g with submitted := g.submitted + 1 } irecvs isends puts notified :=
  ⟨Nat.le_succ_of_le h.executed_le, hlt, h.bounded, h.irecvs, h.isends, h.nodup, h.settled,
    h.notified⟩

theorem Own.irecvCtrl (hphase : g.phase = .recvCtrls i)
    (hop : (sendsOf (g.current cmds))[i]? = some op) :
    Own cmds { g with phase := .recvCtrls (i + 1) }
      (update irecvs op.peerRank (irecvs op.peerRank ++ [op])) isends puts notified := by
  have hirecvs := h.irecvs
  have hisends := h.isends
  have hsettled := h.settled
  have hnotified := h.notified
  simp only [Gpe.asked, hphase] at hirecvs
  simp only [Gpe.offered, hphase] at hisends
  simp only [Gpe.settled, hphase] at hsettled
  simp only [Gpe.heard, hphase] at hnotified
  refine ⟨h.executed_le, h.submitted_le, lt_of_getElem? hop, fun b => ?_, hisends, h.nodup,
    hsettled, hnotified⟩
  rw [withPeer_concat hirecvs b, List.append_assoc, ← take_concat hop]
  rfl

theorem Own.recvCtrlsDone
    (hphase : g.phase = .recvCtrls i) (hlen : i = (sendsOf (g.current cmds)).length) :
    Own cmds { g with phase := .sendCtrls 0 } irecvs isends puts notified := by
  have hirecvs := h.irecvs
  have hisends := h.isends
  have hsettled := h.settled
  have hnotified := h.notified
  simp only [Gpe.asked, hphase, hlen, List.take_length] at hirecvs
  simp only [Gpe.offered, hphase] at hisends
  simp only [Gpe.settled, hphase] at hsettled
  simp only [Gpe.heard, hphase] at hnotified
  exact ⟨h.executed_le, h.submitted_le, Nat.zero_le _, hirecvs, hisends, h.nodup, hsettled,
    hnotified⟩

theorem Own.isendCtrl (hphase : g.phase = .sendCtrls i)
    (hop : (recvsOf (g.current cmds))[i]? = some op) :
    Own cmds { g with phase := .sendCtrls (i + 1) } irecvs
      (update isends op.peerRank (isends op.peerRank ++ [op])) puts notified := by
  have hirecvs := h.irecvs
  have hisends := h.isends
  have hsettled := h.settled
  have hnotified := h.notified
  simp only [Gpe.asked, hphase] at hirecvs
  simp only [Gpe.offered, hphase] at hisends
  simp only [Gpe.settled, hphase] at hsettled
  simp only [Gpe.heard, hphase] at hnotified
  refine ⟨h.executed_le, h.submitted_le, lt_of_getElem? hop, hirecvs, fun b => ?_, h.nodup,
    hsettled, hnotified⟩
  rw [withPeer_concat hisends b, List.append_assoc, ← take_concat hop]
  rfl

theorem Own.sendCtrlsDone
    (hphase : g.phase = .sendCtrls i) (hlen : i = (recvsOf (g.current cmds)).length) :
    Own cmds { g with phase := .putting } irecvs isends puts notified := by
  have hirecvs := h.irecvs
  have hisends := h.isends
  have hsettled := h.settled
  have hnotified := h.notified
  simp only [Gpe.asked, hphase] at hirecvs
  simp only [Gpe.offered, hphase, hlen, List.take_length] at hisends
  simp only [Gpe.settled, hphase] at hsettled
  simp only [Gpe.heard, hphase] at hnotified
  exact ⟨h.executed_le, h.submitted_le, trivial, hirecvs, hisends, h.nodup, hsettled, hnotified⟩

theorem Own.iput (hnew : op ∉ puts) : Own cmds g irecvs isends (puts ++ [op]) notified := by
  refine ⟨h.executed_le, h.submitted_le, h.bounded, h.irecvs, h.isends, ?_,
    fun o ho => List.mem_append_left _ (h.settled o ho), h.notified⟩
  rw [← List.concat_eq_append]
  exact h.nodup.concat hnew

theorem Own.putsDone (hphase : g.phase = .putting)
    (hall : ∀ op ∈ sendsOf (g.current cmds), op ∈ puts) :
    Own cmds { g with phase := .waiting 0 } irecvs isends puts notified := by
  have hirecvs := h.irecvs
  have hisends := h.isends
  have hsettled := h.settled
  have hnotified := h.notified
  simp only [Gpe.asked, hphase] at hirecvs
  simp only [Gpe.offered, hphase] at hisends
  simp only [Gpe.settled, hphase, List.append_nil] at hsettled
  simp only [Gpe.heard, hphase] at hnotified
  refine ⟨h.executed_le, h.submitted_le, Nat.zero_le _, hirecvs, hisends, h.nodup, ?_, hnotified⟩
  intro op hop
  rcases List.mem_append.mp hop with hop | hop
  · exact hsettled op hop
  · exact hall op hop

theorem Own.waitNotify (hphase : g.phase = .waiting i)
    (hop : (recvsOf (g.current cmds))[i]? = some op) :
    Own cmds { g with phase := .waiting (i + 1) } irecvs isends puts
      (update notified op.peerRank (notified op.peerRank + 1)) := by
  have hirecvs := h.irecvs
  have hisends := h.isends
  have hsettled := h.settled
  have hnotified := h.notified
  simp only [Gpe.asked, hphase] at hirecvs
  simp only [Gpe.offered, hphase] at hisends
  simp only [Gpe.settled, hphase] at hsettled
  simp only [Gpe.heard, hphase] at hnotified
  refine ⟨h.executed_le, h.submitted_le, lt_of_getElem? hop, hirecvs, hisends, h.nodup, hsettled,
    fun b => ?_⟩
  have hheard : ({ g with phase := .waiting (i + 1) } : Gpe).heard cmds =
      upTo recvsOf cmds g.executed ++ (recvsOf (g.current cmds)).take i ++ [op] := by
    rw [List.append_assoc, ← take_concat hop]
    rfl
  rw [hheard, withPeer_append, List.length_append, ← hnotified]
  by_cases hb : b = op.peerRank
  · rw [hb, update_self, withPeer_self, List.length_singleton]
  · rw [update_of_ne hb, withPeer_ne hb, List.length_nil, Nat.add_zero]

theorem Own.finish (hlt : g.executed < g.submitted)
    (hphase : g.phase = .waiting i) (hlen : i = (recvsOf (g.current cmds)).length) :
    Own cmds ⟨g.submitted, g.executed + 1, .recvCtrls 0⟩ irecvs isends puts notified := by
  have hirecvs := h.irecvs
  have hisends := h.isends
  have hsettled := h.settled
  have hnotified := h.notified
  have hs : upTo sendsOf cmds (g.executed + 1) = _ := upTo_succ rfl
  have hr : upTo recvsOf cmds (g.executed + 1) = _ := upTo_succ rfl
  simp only [Gpe.asked, hphase, Gpe.current, ← hs] at hirecvs
  simp only [Gpe.offered, hphase, Gpe.current, ← hr] at hisends
  simp only [Gpe.settled, hphase, Gpe.current, ← hs] at hsettled
  simp only [Gpe.heard, hphase, hlen, List.take_length, Gpe.current, ← hr] at hnotified
  refine ⟨hlt, h.submitted_le, Nat.zero_le _, fun b => ?_, fun b => ?_, h.nodup, ?_, fun b => ?_⟩
  · simp only [Gpe.asked, List.take_zero, List.append_nil]
    exact hirecvs b
  · simp only [Gpe.offered, List.append_nil]
    exact hisends b
  · simp only [Gpe.settled, List.append_nil]
    exact hsettled
  · simp only [Gpe.heard, List.append_nil]
    exact hnotified b

end

end Own

/-! ### All ranks -/

variable {commands : ℕ → List (List GroupOp)} {s s' : State} {a : ℕ} {phase : Phase}

/-- What holds of the rank `a`. -/
def State.Owns (commands : ℕ → List (List GroupOp)) (s : State) (a : ℕ) : Prop :=
  Own (commands a) (s.gpe a) (s.irecvCtrls a) (s.isendCtrls a) (s.putOps a) (s.notified a)

/-- Each put goes to the buffer of the receive whose control message answered its request. -/
structure Inv (commands : ℕ → List (List GroupOp)) (s : State) : Prop where
  owns : ∀ a, s.Owns commands a
  answered : ∀ (a : ℕ) (p : GroupOp × GroupOp), p ∈ s.puts a →
    ∃ k : ℕ, (s.irecvCtrls a p.1.peerRank)[k]? = some p.1 ∧
      (s.isendCtrls p.1.peerRank a)[k]? = some p.2

theorem inv_initial : Inv commands State.initial where
  owns _ := own_initial
  answered _ _ hp := absurd hp List.not_mem_nil

theorem Runs.other (h : Runs commands s a phase s') {b : ℕ} (hb : b ≠ a) :
    s'.gpe b = s.gpe b ∧ s'.irecvCtrls b = s.irecvCtrls b ∧ s'.isendCtrls b = s.isendCtrls b ∧
      s'.puts b = s.puts b ∧ s'.notified b = s.notified b := by
  cases h <;> simp [State.setPhase, State.setGpe, push, update_of_ne hb]

theorem Runs.owns (h : Runs commands s a phase s') (hphase : (s.gpe a).phase = phase)
    (hlt : (s.gpe a).executed < (s.gpe a).submitted) (ho : s.Owns commands a) :
    s'.Owns commands a := by
  cases h with
  | irecvCtrl i op hop =>
    simpa [State.Owns, State.putOps, State.setPhase, State.setGpe, push] using
      ho.irecvCtrl hphase hop
  | recvCtrlsDone i hlen =>
    simpa [State.Owns, State.putOps, State.setPhase, State.setGpe] using
      ho.recvCtrlsDone hphase hlen
  | isendCtrl i op hop =>
    simpa [State.Owns, State.putOps, State.setPhase, State.setGpe, push] using
      ho.isendCtrl hphase hop
  | sendCtrlsDone i hlen =>
    simpa [State.Owns, State.putOps, State.setPhase, State.setGpe] using
      ho.sendCtrlsDone hphase hlen
  | iput k op rop hop hnew hreq hctrl =>
    simpa [State.Owns, State.putOps] using ho.iput hnew
  | putsDone hall =>
    simpa [State.Owns, State.putOps, State.setPhase, State.setGpe] using ho.putsDone hphase hall
  | waitNotify i op hop hnotify =>
    simpa [State.Owns, State.putOps, State.setPhase, State.setGpe] using ho.waitNotify hphase hop
  | finish i hlen =>
    simpa [State.Owns, State.putOps, State.setGpe] using ho.finish hlt hphase hlen

theorem getElem?_push {f : ℕ → ℕ → List GroupOp} {a b c d k : ℕ} {op o : GroupOp}
    (h : (f c d)[k]? = some o) : (push f a b op c d)[k]? = some o := by
  by_cases hc : c = a
  · by_cases hd : d = b
    · subst hc hd
      simp only [push, update_self]
      rw [List.getElem?_append_left (List.getElem?_eq_some_iff.mp h).1, h]
    · subst hc
      simp only [push, update_self, update_of_ne hd, h]
  · simp only [push, update_of_ne hc, h]

theorem Runs.kept (h : Runs commands s a phase s') {c d k : ℕ} {o : GroupOp} :
    ((s.irecvCtrls c d)[k]? = some o → (s'.irecvCtrls c d)[k]? = some o) ∧
      ((s.isendCtrls c d)[k]? = some o → (s'.isendCtrls c d)[k]? = some o) := by
  cases h with
  | irecvCtrl => exact ⟨getElem?_push, id⟩
  | isendCtrl => exact ⟨id, getElem?_push⟩
  | _ => exact ⟨id, id⟩

theorem Runs.puts (h : Runs commands s a phase s') {b : ℕ} {p : GroupOp × GroupOp}
    (hp : p ∈ s'.puts b) : p ∈ s.puts b ∨
      ∃ k : ℕ, (s.irecvCtrls b p.1.peerRank)[k]? = some p.1 ∧
        (s.isendCtrls p.1.peerRank b)[k]? = some p.2 := by
  cases h with
  | iput k op rop hop hnew hreq hctrl =>
    by_cases hb : b = a
    · subst hb
      simp only [update_self] at hp
      rcases List.mem_append.mp hp with hp | hp
      · exact .inl hp
      · rw [List.mem_singleton.mp hp]
        exact .inr ⟨k, hreq, hctrl⟩
    · simp only [update_of_ne hb] at hp
      exact .inl hp
  | _ => exact .inl hp

theorem Inv.step (h : Inv commands s) (hstep : Step commands s s') : Inv commands s' := by
  cases hstep with
  | submit a hlt =>
    refine ⟨fun b => ?_, h.answered⟩
    by_cases hb : b = a
    · subst hb
      simpa [State.Owns, State.putOps, State.setGpe] using (h.owns b).submit hlt
    · simpa [State.Owns, State.putOps, State.setGpe, update_of_ne hb] using h.owns b
  | run a hlt hrun =>
    refine ⟨fun b => ?_, fun b p hp => ?_⟩
    · by_cases hb : b = a
      · subst hb
        exact hrun.owns rfl hlt (h.owns b)
      · obtain ⟨hgpe, hirecvs, hisends, hputs, hnotified⟩ := hrun.other hb
        have ho := h.owns b
        unfold State.Owns State.putOps at ho ⊢
        rw [hgpe, hirecvs, hisends, hputs, hnotified]
        exact ho
    · rcases hrun.puts hp with hold | ⟨k, hreq, hctrl⟩
      · obtain ⟨k, hreq, hctrl⟩ := h.answered b p hold
        exact ⟨k, hrun.kept.1 hreq, hrun.kept.2 hctrl⟩
      · exact ⟨k, hrun.kept.1 hreq, hrun.kept.2 hctrl⟩

theorem Reachable.inv (h : Reachable commands s) : Inv commands s := by
  induction h with
  | initial => exact inv_initial
  | step _ hstep ih => exact ih.step hstep

/-! ### States without a step -/

/-- No rank can make a step. -/
def Stuck (commands : ℕ → List (List GroupOp)) (s : State) : Prop := ∀ s', ¬Step commands s s'

variable {b k : ℕ} {op : GroupOp}

theorem flatMap_filter (p : GroupOp → Bool) (cmds : List (List GroupOp)) :
    cmds.flatMap (List.filter p) = cmds.flatten.filter p := by
  rw [List.filter_flatten]
  rfl

theorem sendsTo_eq (a b : ℕ) :
    sendsTo commands a b = withPeer b ((commands a).flatMap sendsOf) := by
  unfold sendsTo withPeer sendsOf
  rw [flatMap_filter, List.filter_filter]
  apply List.filter_congr
  intro op _
  exact Bool.and_comm _ _

theorem recvsFrom_eq (a b : ℕ) :
    recvsFrom commands a b = withPeer b ((commands a).flatMap recvsOf) := by
  unfold recvsFrom withPeer recvsOf
  rw [flatMap_filter, List.filter_filter]
  apply List.filter_congr
  intro op _
  exact Bool.and_comm _ _

section

variable (hs : Stuck commands s) (h : Inv commands s)
include hs h

theorem Stuck.submitted (a : ℕ) : (s.gpe a).submitted = (commands a).length := by
  apply Nat.le_antisymm (h.owns a).submitted_le
  by_contra hlt
  exact hs _ (.submit a (Nat.lt_of_not_le hlt))

theorem Stuck.blocked
    (hlt : (s.gpe a).executed < (commands a).length) :
    (s.gpe a).phase = .putting ∨ ∃ i, (s.gpe a).phase = .waiting i := by
  have hrun : ∀ s', ¬Runs commands s a (s.gpe a).phase s' := by
    intro s' hrun
    refine hs s' (.run a ?_ hrun)
    rw [hs.submitted h a]
    exact hlt
  have hbounded := (h.owns a).bounded
  unfold Gpe.bounded at hbounded
  cases hp : (s.gpe a).phase with
  | recvCtrls i =>
    rw [hp] at hrun hbounded
    rcases Nat.lt_or_eq_of_le hbounded with hi | hi
    · exact absurd (.irecvCtrl i _ (List.getElem?_eq_getElem hi)) (hrun _)
    · exact absurd (.recvCtrlsDone i hi) (hrun _)
  | sendCtrls i =>
    rw [hp] at hrun hbounded
    rcases Nat.lt_or_eq_of_le hbounded with hi | hi
    · exact absurd (.isendCtrl i _ (List.getElem?_eq_getElem hi)) (hrun _)
    · exact absurd (.sendCtrlsDone i hi) (hrun _)
  | putting => exact .inl rfl
  | waiting i => exact .inr ⟨i, rfl⟩

theorem Stuck.lists (a b : ℕ) :
    s.irecvCtrls a b = withPeer b (upTo sendsOf (commands a) ((s.gpe a).executed + 1)) ∧
      s.isendCtrls a b = withPeer b (upTo recvsOf (commands a) ((s.gpe a).executed + 1)) := by
  rw [(h.owns a).irecvs b, (h.owns a).isends b, upTo_succ rfl, upTo_succ rfl]
  unfold Gpe.asked Gpe.offered Gpe.current
  by_cases hlt : (s.gpe a).executed < (commands a).length
  · rcases hs.blocked h hlt with hp | ⟨i, hp⟩ <;> rw [hp] <;> exact ⟨rfl, rfl⟩
  · have hnil : (commands a)[(s.gpe a).executed]? = none :=
      List.getElem?_eq_none (Nat.le_of_not_lt hlt)
    rw [hnil]
    cases (s.gpe a).phase <;> simp [sendsOf, recvsOf]

end

theorem getElem?_of_upTo {f : List GroupOp → List GroupOp} {cmds : List (List GroupOp)} {e : ℕ}
    (h : (withPeer b (upTo f cmds e))[k]? = some op) :
    (withPeer b (cmds.flatMap f))[k]? = some op := by
  rw [withPeer_split b e, List.getElem?_append_left (List.getElem?_eq_some_iff.mp h).1, h]

theorem peer_of_mem {l : List GroupOp} (h : op ∈ withPeer b l) : op.peerRank = b := by
  simpa using (List.mem_filter.mp h).2

variable {j : ℕ}

theorem lt_of_mem_command {f : List GroupOp → List GroupOp} (hf : f [] = [])
    (h : op ∈ f ((commands a)[j]?.getD [])) : j < (commands a).length := by
  by_contra hge
  rw [List.getElem?_eq_none (Nat.le_of_not_lt hge), Option.getD_none, hf] at h
  exact List.not_mem_nil h

theorem mem_command_of_sends (h : op ∈ sendsOf ((commands a)[j]?.getD [])) :
    op ∈ commandAt commands a j ∧ op.type = .SEND := by
  simpa [commandAt] using List.mem_filter.mp h

theorem mem_command_of_recvs (h : op ∈ recvsOf ((commands a)[j]?.getD [])) :
    op ∈ commandAt commands a j ∧ op.type = .RECV := by
  simpa [commandAt] using List.mem_filter.mp h

theorem level_mono {level : ℕ → ℕ → ℕ} (h : Leveled commands level) (a : ℕ) {i j : ℕ}
    (hij : i ≤ j) : level a i ≤ level a j := by
  induction hij with
  | refl => exact Nat.le_refl _
  | step _ ih => exact ih.trans (h.mono a _)

theorem getElem?_of_ordinals {l l' : List GroupOp}
    (h : l.map GroupOp.ordinal = l'.map GroupOp.ordinal) (hop : l[k]? = some op) :
    ∃ rop, l'[k]? = some rop ∧ op.ordinal = rop.ordinal := by
  have hk := congrArg (fun m : List ℕ => m[k]?) h
  simp only [List.getElem?_map, hop, Option.map_some] at hk
  obtain ⟨rop, hrop, hordinal⟩ := Option.map_eq_some_iff.mp hk.symm
  exact ⟨rop, hrop, hordinal.symm⟩

end TorchComms.Algos.GroupSendRecv
