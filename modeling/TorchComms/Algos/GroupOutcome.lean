import TorchComms.Algos.GroupProgress
import Mathlib.Data.List.Perm.Subperm

/-! # The outcome of grouped operations

A blocked rank waits for a rank whose next command is on a lower level than its own, so not all of
them are blocked. Puts go where the requests and control messages agree, which is where the numbers
agree.
-/
namespace TorchComms.Algos.GroupSendRecv

variable {commands : ℕ → List (List GroupOp)} {s : State} {a b k : ℕ} {op : GroupOp}
  {level : ℕ → ℕ → ℕ}

theorem InOrder.recv (h : InOrder commands)
    (hop : (withPeer b ((commands a).flatMap sendsOf))[k]? = some op) :
    ∃ rop, (withPeer a ((commands b).flatMap recvsOf))[k]? = some rop ∧
      op.ordinal = rop.ordinal := by
  have horder := h a b
  rw [sendsTo_eq, recvsFrom_eq] at horder
  exact getElem?_of_ordinals horder hop

/-- A rank with a command left whose next command is on a lower level. -/
def Below (commands : ℕ → List (List GroupOp)) (level : ℕ → ℕ → ℕ) (s : State) (a : ℕ) : Prop :=
  ∃ b, (s.gpe b).executed < (commands b).length ∧
    level b ((s.gpe b).executed + 1) < level a ((s.gpe a).executed + 1)

theorem Stuck.below_of_putting (hs : Stuck commands s) (h : Inv commands s)
    (horder : InOrder commands) (hlevel : Leveled commands level)
    (hlt : (s.gpe a).executed < (commands a).length) (hphase : (s.gpe a).phase = .putting) :
    Below commands level s a := by
  have hrun : ∀ s', ¬Runs commands s a .putting s' := by
    intro s' hrun
    refine hs s' (.run a ?_ (hphase ▸ hrun))
    rw [hs.submitted h a]
    exact hlt
  have hleft : ∃ op ∈ sendsOf (s.command commands a), op ∉ s.putOps a := by
    by_contra hnone
    push Not at hnone
    exact hrun _ (.putsDone hnone)
  obtain ⟨op, hop, hnew⟩ := hleft
  obtain ⟨hirecvs, _⟩ := hs.lists h a op.peerRank
  obtain ⟨_, hisends⟩ := hs.lists h op.peerRank a
  have hasked : op ∈ s.irecvCtrls a op.peerRank := by
    rw [hirecvs, upTo_succ rfl]
    exact List.mem_filter.mpr ⟨List.mem_append_right _ hop, by simp⟩
  obtain ⟨k, hk⟩ := List.getElem?_of_mem hasked
  have hsend := hk
  rw [hirecvs] at hsend
  obtain ⟨rop, hrop, hordinal⟩ := horder.recv (getElem?_of_upTo hsend)
  have hlate : (s.isendCtrls op.peerRank a).length ≤ k := by
    by_contra hshort
    exact hrun _ (.iput k op _ hop hnew hk (List.getElem?_eq_getElem (Nat.lt_of_not_le hshort)))
  rw [hisends] at hlate
  obtain ⟨j, hj, hmem⟩ := exists_later hrop hlate
  have hjlt := lt_of_mem_command rfl hmem
  obtain ⟨hropmem, hrecv⟩ := mem_command_of_recvs hmem
  obtain ⟨hopmem, hsendtype⟩ := mem_command_of_sends hop
  have hpeer := peer_of_mem (List.mem_of_getElem? hrop)
  have hlower := hlevel.lt hopmem hropmem rfl hpeer (by rw [hsendtype, hrecv]; nofun) hordinal
  exact ⟨op.peerRank, by omega, (level_mono hlevel _ hj).trans_lt hlower⟩

/-- Fewer notifications came than were taken and asked for, so a put among the first is missing. -/
theorem exists_missing {l puts : List GroupOp} {n : ℕ} (hn : n < l.length) (hnodup : l.Nodup)
    (hpeer : ∀ op ∈ l, op.peerRank = a) (hfew : (puts.countP fun op => op.peerRank = a) ≤ n) :
    ∃ k op, k ≤ n ∧ l[k]? = some op ∧ op ∉ puts := by
  by_contra hnone
  push Not at hnone
  have hsub : l.take (n + 1) ⊆ puts.filter fun op => op.peerRank = a := by
    intro op hop
    obtain ⟨k, hk⟩ := List.getElem?_of_mem hop
    rw [List.getElem?_take] at hk
    have hle : k < n + 1 := by
      by_contra hge
      rw [if_neg hge] at hk
      cases hk
    rw [if_pos hle] at hk
    apply List.mem_filter.mpr
    refine ⟨hnone k op (Nat.le_of_lt_succ hle) hk, ?_⟩
    simpa using hpeer op (List.mem_of_getElem? hk)
  have hlen := (hnodup.sublist (List.take_sublist _ _)).subperm hsub |>.length_le
  rw [List.length_take, ← List.countP_eq_length_filter] at hlen
  omega

theorem Stuck.later_of_missing (hs : Stuck commands s) (h : Inv commands s) {sop rop : GroupOp}
    (hsop : (withPeer a ((commands b).flatMap sendsOf))[k]? = some sop)
    (hrop : (s.isendCtrls a b)[k]? = some rop) (hmissing : sop ∉ s.putOps b) :
    ∃ j, (s.gpe b).executed + 1 ≤ j ∧ sop ∈ sendsOf ((commands b)[j]?.getD []) := by
  by_cases hshort : k < (withPeer a (upTo sendsOf (commands b) ((s.gpe b).executed + 1))).length
  · have hpeer := peer_of_mem (List.mem_of_getElem? hsop)
    rw [withPeer_split a ((s.gpe b).executed + 1), List.getElem?_append_left hshort] at hsop
    have hmem := List.mem_of_mem_filter (List.mem_of_getElem? hsop)
    rw [upTo_succ rfl] at hmem
    have hsettled : sop ∉ (s.gpe b).settled (commands b) :=
      fun hin => hmissing ((h.owns b).settled sop hin)
    unfold Gpe.settled at hsettled
    rcases List.mem_append.mp hmem with hold | hcurrent
    · exact absurd (List.mem_append_left _ hold) hsettled
    · have hlt := lt_of_mem_command rfl hcurrent
      rcases hs.blocked h hlt with hphase | ⟨i, hphase⟩
      · have hreq : (s.irecvCtrls b sop.peerRank)[k]? = some sop := by
          rw [hpeer, (hs.lists h b a).1, hsop]
        rw [← hpeer] at hrop
        have hrun : Runs commands s b .putting _ :=
          .iput k sop rop hcurrent hmissing hreq hrop
        rw [← hphase] at hrun
        refine absurd (.run b ?_ hrun) (hs _)
        rw [hs.submitted h b]
        exact hlt
      · rw [hphase] at hsettled
        exact absurd (List.mem_append_right _ hcurrent) hsettled
  · exact exists_later hsop (Nat.le_of_not_lt hshort)

/-- A notification is missing because of a put in a later command of the peer. -/
theorem Stuck.below_of_waiting (hs : Stuck commands s) (h : Inv commands s)
    (horder : InOrder commands) (hlevel : Leveled commands level)
    (hnodup : ∀ b, (commands b).flatten.Nodup) {i : ℕ}
    (hlt : (s.gpe a).executed < (commands a).length) (hphase : (s.gpe a).phase = .waiting i) :
    Below commands level s a := by
  have hrun : ∀ s', ¬Runs commands s a (.waiting i) s' := by
    intro s' hrun
    refine hs s' (.run a ?_ (hphase ▸ hrun))
    rw [hs.submitted h a]
    exact hlt
  have hbounded := (h.owns a).bounded
  unfold Gpe.bounded at hbounded
  rw [hphase] at hbounded
  have hi : i < (recvsOf (s.command commands a)).length := by
    rcases Nat.lt_or_eq_of_le hbounded with hi | hi
    · exact hi
    · exact absurd (.finish i hi) (hrun _)
  have hop := List.getElem?_eq_getElem hi
  generalize (recvsOf (s.command commands a))[i] = op at hop
  have hfew : s.notifications op.peerRank a ≤ s.notified a op.peerRank := by
    by_contra hmore
    exact hrun _ (.waitNotify i op hop (Nat.lt_of_not_le hmore))
  -- the receive stands behind those whose notifications were taken
  have hplace : s.notified a op.peerRank <
      (withPeer op.peerRank (upTo recvsOf (commands a) ((s.gpe a).executed + 1))).length := by
    rw [(h.owns a).notified]
    unfold Gpe.heard
    rw [hphase, upTo_succ rfl]
    have hsplit : recvsOf (s.command commands a) =
        (recvsOf (s.command commands a)).take i ++ [op] ++
          (recvsOf (s.command commands a)).drop (i + 1) := by
      rw [← take_concat hop, List.take_append_drop]
    change _ < (withPeer _ (_ ++ recvsOf (s.command commands a))).length
    rw [hsplit]
    change (withPeer _ (_ ++ (recvsOf (s.command commands a)).take i)).length < _
    simp only [withPeer_append, List.length_append, withPeer_self, List.length_singleton]
    omega
  have hlength : (withPeer op.peerRank ((commands a).flatMap recvsOf)).length =
      (withPeer a ((commands op.peerRank).flatMap sendsOf)).length := by
    have horder' := congrArg List.length (horder op.peerRank a)
    rw [List.length_map, List.length_map, sendsTo_eq, recvsFrom_eq] at horder'
    exact horder'.symm
  have hall : s.notified a op.peerRank <
      (withPeer a ((commands op.peerRank).flatMap sendsOf)).length := by
    rw [← hlength, withPeer_split _ ((s.gpe a).executed + 1), List.length_append]
    omega
  have hsends : (withPeer a ((commands op.peerRank).flatMap sendsOf)).Nodup := by
    rw [← sendsTo_eq]
    exact (hnodup _).filter _
  obtain ⟨k, sop, hk, hsop, hmissing⟩ :=
    exists_missing hall hsends (fun o ho => peer_of_mem ho) hfew
  -- its receive is not later than the one that waits, so its control message is there
  have hroom : k < (withPeer op.peerRank
      (upTo recvsOf (commands a) ((s.gpe a).executed + 1))).length := Nat.lt_of_le_of_lt hk hplace
  obtain ⟨rop, hrop, hordinal⟩ := horder.recv hsop
  rw [withPeer_split _ ((s.gpe a).executed + 1), List.getElem?_append_left hroom] at hrop
  have hctrl : (s.isendCtrls a op.peerRank)[k]? = some rop := by
    rw [(hs.lists h a _).2, hrop]
  obtain ⟨j, hj, hmem⟩ := hs.later_of_missing h hsop hctrl hmissing
  have hjlt := lt_of_mem_command rfl hmem
  obtain ⟨i', hi', hropmem⟩ := exists_earlier (List.mem_of_mem_filter (List.mem_of_getElem? hrop))
  obtain ⟨hsopmem, hsendtype⟩ := mem_command_of_sends hmem
  obtain ⟨hropmem, hrecvtype⟩ := mem_command_of_recvs hropmem
  have hlower := hlevel.lt hropmem hsopmem (peer_of_mem (List.mem_of_getElem? hrop))
    (peer_of_mem (List.mem_of_getElem? hsop)) (by rw [hsendtype, hrecvtype]; nofun) hordinal.symm
  refine ⟨op.peerRank, by omega, ?_⟩
  exact (level_mono hlevel _ hj).trans_lt (hlower.trans_le (level_mono hlevel _ hi'))

theorem Inv.progress (h : Inv commands s) (horder : InOrder commands)
    (hlevel : Leveled commands level) (hnodup : ∀ b, (commands b).flatten.Nodup)
    (hlt : (s.gpe a).executed < (commands a).length) : ∃ s', Step commands s s' := by
  by_contra hnone
  have hs : Stuck commands s := fun s' hstep => hnone ⟨s', hstep⟩
  generalize hl : level a ((s.gpe a).executed + 1) = l
  induction l using Nat.strong_induction_on generalizing a with
  | _ l ih =>
    have hbelow : Below commands level s a := by
      rcases hs.blocked h hlt with hphase | ⟨i, hphase⟩
      · exact hs.below_of_putting h horder hlevel hlt hphase
      · exact hs.below_of_waiting h horder hlevel hnodup hlt hphase
    obtain ⟨b, hblt, hlower⟩ := hbelow
    rw [hl] at hlower
    exact ih _ hlower hblt rfl

/-! ### Placement -/

theorem prefix_upTo (f : List GroupOp → List GroupOp) (cmds : List (List GroupOp)) (e : ℕ) :
    upTo f cmds e <+: cmds.flatMap f := by
  conv_rhs => rw [← List.take_append_drop e cmds, List.flatMap_append]
  exact List.prefix_append _ _

theorem prefix_asked (cmds : List (List GroupOp)) (g : Gpe) :
    g.asked cmds <+: cmds.flatMap sendsOf := by
  apply List.IsPrefix.trans _ (prefix_upTo sendsOf cmds (g.executed + 1))
  rw [upTo_succ rfl]
  apply (List.prefix_append_right_inj _).mpr
  cases g.phase with
  | recvCtrls i => exact List.take_prefix _ _
  | _ => exact List.prefix_rfl

theorem prefix_offered (cmds : List (List GroupOp)) (g : Gpe) :
    g.offered cmds <+: cmds.flatMap recvsOf := by
  apply List.IsPrefix.trans _ (prefix_upTo recvsOf cmds (g.executed + 1))
  rw [upTo_succ rfl]
  apply (List.prefix_append_right_inj _).mpr
  cases g.phase with
  | recvCtrls i => exact List.nil_prefix
  | sendCtrls i => exact List.take_prefix _ _
  | _ => exact List.prefix_rfl

theorem getElem?_of_prefix {l l' : List GroupOp} (h : l <+: l') (hop : l[k]? = some op) :
    l'[k]? = some op := by
  obtain ⟨rest, rfl⟩ := h
  rw [List.getElem?_append_left (List.getElem?_eq_some_iff.mp hop).1, hop]

theorem Inv.placed (h : Inv commands s) (horder : InOrder commands) {p : GroupOp × GroupOp}
    (hp : p ∈ s.puts a) :
    p.1 ∈ sendsTo commands a p.1.peerRank ∧ p.2 ∈ recvsFrom commands p.1.peerRank a ∧
      p.1.ordinal = p.2.ordinal := by
  obtain ⟨k, hreq, hctrl⟩ := h.answered a p hp
  rw [(h.owns a).irecvs] at hreq
  rw [(h.owns _).isends] at hctrl
  have hsop := getElem?_of_prefix ((prefix_asked _ _).filter _) hreq
  have hrop := getElem?_of_prefix ((prefix_offered _ _).filter _) hctrl
  obtain ⟨rop, hrop', hordinal⟩ := horder.recv hsop
  rw [withPeer, hrop] at hrop'
  obtain rfl := Option.some.inj hrop'
  refine ⟨?_, ?_, hordinal⟩
  · rw [sendsTo_eq]
    exact List.mem_of_getElem? hsop
  · rw [recvsFrom_eq]
    exact List.mem_of_getElem? hrop

theorem Inv.complete (h : Inv commands s) (hdone : (s.gpe a).executed = (commands a).length)
    (hop : op ∈ (commands a).flatten) (htype : op.type = .SEND) : op ∈ s.putOps a := by
  apply (h.owns a).settled
  unfold Gpe.settled
  apply List.mem_append_left
  have hall : (commands a).flatMap sendsOf = (commands a).flatten.filter fun o => o.type = .SEND :=
    flatMap_filter _ _
  rw [hdone, upTo_all, hall]
  exact List.mem_filter.mpr ⟨hop, by simpa using htype⟩

/-! ### The hook -/

/-- The hook succeeds, what it copies and what is put goes to the buffer of the receive with the
same number, some rank can go on while a command is left, and in the end every send is done. -/
structure Correct (groups : ℕ → List OpElem) (s : State) : Prop where
  success : ∀ a, (ctranGroupEndHook a (batches (groups a))).result = .commSuccess
  copied : ∀ a, ∀ p ∈ (ctranGroupEndHook a (batches (groups a))).copies,
    p.2 ∈ number [] (groups a) ∧ p.2.Is .RECV a = true ∧ p.1.ordinal = p.2.ordinal ∧
      p.1.nbytes = p.2.nbytes
  allCopied : ∀ a, ∀ op ∈ number [] (groups a), op.Is .SEND a = true →
    ∃ p ∈ (ctranGroupEndHook a (batches (groups a))).copies, p.1 = op
  placed : ∀ a, ∀ p ∈ s.puts a,
    p.2 ∈ number [] (groups p.1.peerRank) ∧ p.2.Is .RECV a = true ∧
      p.1.ordinal = p.2.ordinal ∧ p.1.nbytes = p.2.nbytes
  progress : ∀ a, (s.gpe a).executed < (commandsOf groups a).length →
    ∃ s', Step (commandsOf groups) s s'
  allPut : ∀ a, (s.gpe a).executed = (commandsOf groups a).length →
    ∀ op ∈ number [] (groups a), op.type = .SEND → op.peerRank ≠ a → op ∈ s.putOps a

theorem mem_self {rank : ℕ} {group : List OpElem} {type : OpType} {op : GroupOp} :
    op ∈ (batches group).flatten.filter (fun o => o.Is type rank) ↔
      op ∈ number [] group ∧ op.Is type rank = true := by
  rw [List.mem_filter, (batches_perm group).mem_iff]

/-- Groups whose ranks assign streams in agreement are executed as they should be. -/
theorem groups_correct {groups : ℕ → List OpElem} (hmatched : Matched groups)
    (hagreed : Agreed groups) (h : Reachable (commandsOf groups) s) : Correct groups s where
  success a := (hagreed.self a).success
  copied a p hp := by
    obtain ⟨hfst, hsnd, hordinal⟩ := (hagreed.self a).copies
    have hsend : p.1 ∈ selfSends a (batches (groups a)).flatten :=
      hfst ▸ List.mem_map_of_mem hp
    have hrecv : p.2 ∈ selfRecvs a (batches (groups a)).flatten :=
      hsnd ▸ List.mem_map_of_mem hp
    obtain ⟨hsend, hsendIs⟩ := mem_self.mp hsend
    obtain ⟨hrecv, hrecvIs⟩ := mem_self.mp hrecv
    exact ⟨hrecv, hrecvIs, hordinal p hp,
      nbytes_eq hmatched hsend hrecv hsendIs hrecvIs (hordinal p hp)⟩
  allCopied a op hop his := by
    obtain ⟨hfst, _, _⟩ := (hagreed.self a).copies
    have hmem : op ∈ selfSends a (batches (groups a)).flatten := mem_self.mpr ⟨hop, his⟩
    rw [← hfst] at hmem
    obtain ⟨p, hp, hpop⟩ := List.mem_map.mp hmem
    exact ⟨p, hp, hpop⟩
  placed a p hp := by
    obtain ⟨hsend, hrecv, hordinal⟩ := h.inv.placed hagreed.order hp
    obtain ⟨hsend, hsendIs⟩ := List.mem_filter.mp hsend
    obtain ⟨hrecv, hrecvIs⟩ := List.mem_filter.mp hrecv
    have hsend' := (hagreed.mem_commands.mp hsend).1
    have hrecv' := (hagreed.mem_commands.mp hrecv).1
    exact ⟨hrecv', hrecvIs, hordinal,
      nbytes_eq hmatched hsend' hrecv' hsendIs hrecvIs hordinal⟩
  progress a hlt := by
    obtain ⟨level, hlevel⟩ := hagreed.acyclic
    exact h.inv.progress hagreed.order hlevel hagreed.nodup hlt
  allPut a hdone op hop htype hpeer :=
    h.inv.complete hdone (hagreed.mem_commands.mpr ⟨hop, hpeer⟩) htype

/-! ### One transfer, and streams that do not agree -/

/-- Rank 0 sends to rank 1. -/
def oneTransfer : ℕ → List OpElem
  | 0 => [⟨.SEND, 7, 1, 100, 1, 4⟩]
  | 1 => [⟨.RECV, 3, 0, 200, 1, 4⟩]
  | _ => []

theorem matched_oneTransfer : Matched oneTransfer := by
  intro a b
  match a, b with
  | 0, 0 | 0, 1 | 0, b + 2 => rfl
  | 1, 0 | 1, 1 | 1, b + 2 => rfl
  | a + 2, 0 | a + 2, 1 | a + 2, b + 2 => rfl

theorem agreed_oneTransfer : Agreed oneTransfer := by
  apply agreed_of_single matched_oneTransfer fun a => if a = 0 then 7 else 3
  intro a op hop
  match a with
  | 0 | 1 => rw [List.mem_singleton.mp hop]; rfl
  | a + 2 => exact absurd hop List.not_mem_nil

theorem groups_correct_one : ∃ s, Reachable (commandsOf oneTransfer) s ∧ (s.puts 0).length = 1 ∧
    Correct oneTransfer s := by
  have h0 : Reachable (commandsOf oneTransfer) State.initial := .initial
  have h1 := h0.step (.submit 0 (by decide))
  have h2 := h1.step (.submit 1 (by decide))
  have h3 := h2.step (.run 0 (by decide) (.irecvCtrl 0 ⟨⟨.SEND, 7, 1, 100, 1, 4⟩, 0⟩ rfl))
  have h4 := h3.step (.run 0 (by decide) (.recvCtrlsDone 1 rfl))
  have h5 := h4.step (.run 0 (by decide) (.sendCtrlsDone 0 rfl))
  have h6 := h5.step (.run 1 (by decide) (.recvCtrlsDone 0 rfl))
  have h7 := h6.step (.run 1 (by decide) (.isendCtrl 0 ⟨⟨.RECV, 3, 0, 200, 1, 4⟩, 0⟩ rfl))
  have h8 := h7.step (.run 0 (by decide) (.iput 0 ⟨⟨.SEND, 7, 1, 100, 1, 4⟩, 0⟩
    ⟨⟨.RECV, 3, 0, 200, 1, 4⟩, 0⟩ (by decide) (by decide) rfl rfl))
  exact ⟨_, h8, rfl, groups_correct matched_oneTransfer agreed_oneTransfer h8⟩

/-- Both ranks send on one stream and receive on another. -/
def crossed : ℕ → List OpElem
  | 0 => [⟨.SEND, 1, 1, 100, 1, 4⟩, ⟨.RECV, 2, 1, 200, 1, 4⟩]
  | 1 => [⟨.SEND, 1, 0, 300, 1, 4⟩, ⟨.RECV, 2, 0, 400, 1, 4⟩]
  | _ => []

/-- Rank 0 sends on two streams what rank 1 receives on one. -/
def mixed : ℕ → List OpElem
  | 0 => [⟨.SEND, 1, 1, 100, 1, 4⟩, ⟨.SEND, 2, 1, 101, 1, 4⟩, ⟨.SEND, 1, 1, 102, 1, 4⟩]
  | 1 => [⟨.RECV, 1, 0, 200, 1, 4⟩, ⟨.RECV, 1, 0, 201, 1, 4⟩, ⟨.RECV, 1, 0, 202, 1, 4⟩]
  | _ => []

/-- Rank 0 sends to itself on one stream and receives on another. -/
def split : ℕ → List OpElem
  | 0 => [⟨.SEND, 1, 0, 100, 1, 4⟩, ⟨.RECV, 2, 0, 200, 1, 4⟩]
  | _ => []

theorem matched_crossed : Matched crossed := by
  intro a b
  match a, b with
  | 0, 0 | 0, 1 | 0, b + 2 => rfl
  | 1, 0 | 1, 1 | 1, b + 2 => rfl
  | a + 2, 0 | a + 2, 1 | a + 2, b + 2 => rfl

theorem matched_mixed : Matched mixed := by
  intro a b
  match a, b with
  | 0, 0 | 0, 1 | 0, b + 2 => rfl
  | 1, 0 | 1, 1 | 1, b + 2 => rfl
  | a + 2, 0 | a + 2, 1 | a + 2, b + 2 => rfl

theorem matched_split : Matched split := by
  intro a b
  match a, b with
  | 0, 0 | 0, b + 1 | a + 1, 0 | a + 1, b + 1 => rfl

theorem not_runs_of_no_ctrl {s' : State} (hphase : (s.gpe a).phase = .putting)
    (hleft : ∃ op ∈ sendsOf (s.command commands a), op ∉ s.putOps a)
    (hnone : ∀ b, s.isendCtrls b a = []) : ¬Runs commands s a (s.gpe a).phase s' := by
  rw [hphase]
  intro hrun
  cases hrun with
  | iput k op rop _ _ _ hctrl =>
    rw [hnone] at hctrl
    cases hctrl
  | putsDone hall =>
    obtain ⟨op, hop, hnew⟩ := hleft
    exact hnew (hall op hop)

/-- With matched operations, both ranks can wait for each other, the third send can land in the
second receive, and the hook can fail. -/
theorem not_correct_streams :
    (Matched crossed ∧ ∃ s, Reachable (commandsOf crossed) s ∧
      (s.gpe 0).executed < (commandsOf crossed 0).length ∧
      ¬∃ s', Step (commandsOf crossed) s s') ∧
    (Matched mixed ∧ ∃ s, Reachable (commandsOf mixed) s ∧
      ∃ p ∈ s.puts 0, p.1.buff = 102 ∧ p.2.buff = 201) ∧
    Matched split ∧
      (ctranGroupEndHook 0 (batches (split 0))).result = .commInvalidUsage := by
  refine ⟨⟨matched_crossed, ?_⟩, ⟨matched_mixed, ?_⟩, matched_split, by decide⟩
  · have h0 : Reachable (commandsOf crossed) State.initial := .initial
    have h1 := h0.step (.submit 0 (by decide))
    have h2 := h1.step (.submit 0 (by decide))
    have h3 := h2.step (.submit 1 (by decide))
    have h4 := h3.step (.submit 1 (by decide))
    have h5 := h4.step (.run 0 (by decide) (.irecvCtrl 0 ⟨⟨.SEND, 1, 1, 100, 1, 4⟩, 0⟩ rfl))
    have h6 := h5.step (.run 0 (by decide) (.recvCtrlsDone 1 rfl))
    have h7 := h6.step (.run 0 (by decide) (.sendCtrlsDone 0 rfl))
    have h8 := h7.step (.run 1 (by decide) (.irecvCtrl 0 ⟨⟨.SEND, 1, 0, 300, 1, 4⟩, 0⟩ rfl))
    have h9 := h8.step (.run 1 (by decide) (.recvCtrlsDone 1 rfl))
    have h10 := h9.step (.run 1 (by decide) (.sendCtrlsDone 0 rfl))
    refine ⟨_, h10, by decide, ?_⟩
    rintro ⟨s', hstep⟩
    cases hstep with
    | submit a hlt =>
      match a with
      | 0 | 1 => exact absurd hlt (by decide)
      | a + 2 => exact absurd hlt (Nat.not_lt_zero _)
    | run a hlt hrun =>
      match a with
      | 0 =>
        exact not_runs_of_no_ctrl rfl
          ⟨⟨⟨.SEND, 1, 1, 100, 1, 4⟩, 0⟩, by decide, List.not_mem_nil⟩ (fun _ => rfl) hrun
      | 1 =>
        exact not_runs_of_no_ctrl rfl
          ⟨⟨⟨.SEND, 1, 0, 300, 1, 4⟩, 0⟩, by decide, List.not_mem_nil⟩ (fun _ => rfl) hrun
      | a + 2 => exact absurd hlt (Nat.not_lt_zero _)
  · have h0 : Reachable (commandsOf mixed) State.initial := .initial
    have h1 := h0.step (.submit 0 (by decide))
    have h2 := h1.step (.submit 1 (by decide))
    have h3 := h2.step (.run 0 (by decide) (.irecvCtrl 0 ⟨⟨.SEND, 1, 1, 100, 1, 4⟩, 0⟩ rfl))
    have h4 := h3.step (.run 0 (by decide) (.irecvCtrl 1 ⟨⟨.SEND, 1, 1, 102, 1, 4⟩, 2⟩ rfl))
    have h5 := h4.step (.run 0 (by decide) (.recvCtrlsDone 2 rfl))
    have h6 := h5.step (.run 0 (by decide) (.sendCtrlsDone 0 rfl))
    have h7 := h6.step (.run 1 (by decide) (.recvCtrlsDone 0 rfl))
    have h8 := h7.step (.run 1 (by decide) (.isendCtrl 0 ⟨⟨.RECV, 1, 0, 200, 1, 4⟩, 0⟩ rfl))
    have h9 := h8.step (.run 1 (by decide) (.isendCtrl 1 ⟨⟨.RECV, 1, 0, 201, 1, 4⟩, 1⟩ rfl))
    have h10 := h9.step (.run 0 (by decide) (.iput 1 ⟨⟨.SEND, 1, 1, 102, 1, 4⟩, 2⟩
      ⟨⟨.RECV, 1, 0, 201, 1, 4⟩, 1⟩ (by decide) (by decide) rfl rfl))
    exact ⟨_, h10, _, List.mem_singleton_self _, rfl, rfl⟩

end TorchComms.Algos.GroupSendRecv
