import TorchComms.CtranIb.VcStep

/-! # The logs of the data path know its operations

An operation is in the log from its acceptance on, and what was posted for it adds up to how far it
has got: to its whole length once it is done.
-/
namespace TorchComms.CtranIb
/-- A work request of an operation, regular or not. -/
def Posted.isFor (kind : OpKind) (id : ℕ) (p : Posted) : Bool := p.kind = kind && p.id = id

theorem Posted.isFor_iff {kind : OpKind} {id : ℕ} {p : Posted} :
    p.isFor kind id ↔ p.kind = kind ∧ p.id = id := by
  simp [Posted.isFor]

/-- The log's entry of a regular operation. -/
def OpInfo.entry (kind : OpKind) (op : OpInfo) : Issued :=
  ⟨kind, op.id, op.len, op.notify, op.vcMode, false⟩

namespace CtranIbVirtualConn

open Foundation Relation

variable {t t' : CtranIbVirtualConn} {kind k : OpKind} {op : OpInfo} {rest : List OpInfo}
  {p : Posted} {f : FastOpInfo} {fs : List FastOpInfo}

/-- How many bytes were posted for an operation. -/
def bytes (t : CtranIbVirtualConn) (kind : OpKind) (id : ℕ) : ℕ :=
  ((t.posted.filter (Posted.isFor kind id)).map (·.wr.length)).sum

structure Known (t : CtranIbVirtualConn) : Prop where
  live : ∀ kind, ∀ op ∈ t.live kind, OpInfo.entry kind op ∈ t.issued
  fast : ∀ kind, ∀ f ∈ (t.ops kind).fast, ∃ i ∈ t.issued, i.kind = kind ∧ i.id = f.id ∧ i.fast = true
  unique : ∀ i ∈ t.issued, ∀ i' ∈ t.issued, i.kind = i'.kind → i.id = i'.id → i = i'
  fresh : ∀ i ∈ t.issued, i.id < t.opId_ i.kind
  gets : ∀ op ∈ t.live .get, op.notify = false
  wire : ∀ p ∈ t.wire, p ∈ t.posted
  posted : ∀ p ∈ t.posted, p.id < t.opId_ p.kind
  started : ∀ kind, ∀ op ∈ t.live kind, t.bytes kind op.id = op.offset
  finished : ∀ i ∈ t.issued, i.id ∉ t.liveIds i.kind → t.bytes i.kind i.id = i.len

theorem known_init (cfg : VcConfig) : Known { cfg := cfg } where
  live _ _ h := nomatch h
  fast _ _ h := nomatch h
  unique _ h := nomatch h
  fresh _ h := nomatch h
  gets _ h := nomatch h
  wire _ h := nomatch h
  posted _ h := nomatch h
  started _ _ h := nomatch h
  finished _ h := nomatch h

theorem bytes_append (h : t'.posted = t.posted ++ [p]) (kind : OpKind) (id : ℕ) :
    t'.bytes kind id = t.bytes kind id + if p.kind = kind ∧ p.id = id then p.wr.length else 0 := by
  rw [bytes, h, List.filter_append, List.map_append, List.sum_append, bytes]
  by_cases hfor : p.kind = kind ∧ p.id = id
  · rw [if_pos hfor, List.filter_cons_of_pos (Posted.isFor_iff.mpr hfor)]
    simp
  · rw [if_neg hfor, List.filter_cons_of_neg fun hc => hfor (Posted.isFor_iff.mp hc)]
    simp

theorem Known.of_same (h : t.Known) (hops : t'.ops = t.ops) (hid : ∀ k, t.opId_ k ≤ t'.opId_ k)
    (hwire : t'.wire = t.wire) (hposted : t'.posted = t.posted) (hissued : t'.issued = t.issued) :
    t'.Known where
  live := by
    simp only [CtranIbVirtualConn.live, hops, hissued]
    exact h.live
  fast := by
    rw [hops, hissued]
    exact h.fast
  unique := by
    rw [hissued]
    exact h.unique
  fresh := by
    rw [hissued]
    exact fun i hi => Nat.lt_of_lt_of_le (h.fresh i hi) (hid _)
  gets := by
    simp only [CtranIbVirtualConn.live, hops]
    exact h.gets
  wire := by
    rw [hwire, hposted]
    exact h.wire
  posted := by
    rw [hposted]
    exact fun p hp => Nat.lt_of_lt_of_le (h.posted p hp) (hid _)
  started := by
    simp only [CtranIbVirtualConn.live, bytes, hops, hposted]
    exact h.started
  finished := by
    simp only [liveIds, CtranIbVirtualConn.live, bytes, hops, hposted, hissued]
    exact h.finished

theorem Known.of_sameData (h : t.Known) (hsame : SameData t t') : t'.Known :=
  h.of_same hsame.ops (fun k => Nat.le_of_eq (congrFun hsame.opId k).symm) hsame.wire hsame.posted
    hsame.issued

theorem newWqe_length (t : CtranIbVirtualConn) (kind : OpKind) (i : ℕ) (op : OpInfo) :
    (t.newWqe kind i op).wr.length = t.cfg.toSend op := by
  cases kind <;> rfl

theorem Known.postWqe (h : t.Known) (hcons : t.Consistent)
    (hp : (t.ops kind).pending = op :: rest) (i : ℕ) : (t.postWqe kind i op rest).Known := by
  have hmem : op ∈ t.live kind := by simp [live_eq hp]
  have hlive : ∀ k, ∀ op' ∈ (t.postWqe kind i op rest).live k,
      op' ∈ t.live k ∧ (k = kind → op'.id ≠ op.id) ∨ k = kind ∧ op' = t.cfg.advance op := by
    intro k op' hop'
    by_cases hk : k = kind
    · subst hk
      have hsorted := hcons.sorted k
      rw [liveIds, live_eq hp, List.map_append, List.map_cons, List.pairwise_append,
        List.pairwise_cons] at hsorted
      rw [postWqe_live_self, List.mem_append, List.mem_cons] at hop'
      rcases hop' with hop' | rfl | hop'
      · refine Or.inl ⟨by simp [live_eq hp, hop'], fun _ => Nat.ne_of_lt ?_⟩
        exact hsorted.2.2 _ (List.mem_map_of_mem hop') _ (List.mem_cons_self ..)
      · exact Or.inr ⟨rfl, rfl⟩
      · refine Or.inl ⟨by simp [live_eq hp, hop'], fun _ => Nat.ne_of_gt ?_⟩
        exact hsorted.2.1.1 _ (List.mem_map_of_mem hop')
    · rw [CtranIbVirtualConn.live, postWqe_ops_of_ne hk] at hop'
      exact Or.inl ⟨hop', fun heq => absurd heq hk⟩
  have hbytes : ∀ k id, (t.postWqe kind i op rest).bytes k id =
      t.bytes k id + if kind = k ∧ op.id = id then t.cfg.toSend op else 0 := by
    intro k id
    rw [bytes_append (p := t.newWqe kind i op) rfl, newWqe_kind, newWqe_length]
    rfl
  exact {
    live := by
      intro k op' hop'
      rcases hlive k op' hop' with ⟨hold, _⟩ | ⟨rfl, rfl⟩
      · exact h.live k op' hold
      · exact h.live k op hmem
    fast := by
      intro k f hf
      apply h.fast k f
      by_cases hk : k = kind
      · subst hk
        rwa [postWqe_ops_self, OpQueues.fast_advance] at hf
      · rwa [postWqe_ops_of_ne hk] at hf
    __ := h
    gets := by
      intro op' hop'
      rcases hlive .get op' hop' with ⟨hold, _⟩ | ⟨rfl, rfl⟩
      · exact h.gets op' hold
      · exact h.gets op hmem
    wire := by
      intro p hpw
      rw [postWqe_wire, List.mem_append] at hpw
      change p ∈ t.posted ++ [t.newWqe kind i op]
      rw [List.mem_append]
      exact hpw.imp_left (h.wire p)
    posted := by
      intro p hpp
      change p ∈ t.posted ++ [t.newWqe kind i op] at hpp
      rw [List.mem_append, List.mem_singleton] at hpp
      rcases hpp with hpp | rfl
      · exact h.posted p hpp
      · rw [newWqe_kind]
        exact hcons.fresh kind _ (List.mem_map_of_mem hmem)
    started := by
      intro k op' hop'
      rw [hbytes]
      rcases hlive k op' hop' with ⟨hold, hne⟩ | ⟨rfl, rfl⟩
      · rw [if_neg fun hc => hne hc.1.symm hc.2.symm, Nat.add_zero]
        exact h.started k op' hold
      · change t.bytes k op.id + _ = op.offset + _
        rw [h.started k op hmem, if_pos ⟨rfl, rfl⟩]
    finished := by
      intro i' hi' hgone
      rw [postWqe_liveIds hp] at hgone
      rw [hbytes, if_neg, Nat.add_zero]
      · exact h.finished i' hi' hgone
      · rintro ⟨rfl, hid⟩
        apply hgone
        rw [← hid]
        exact List.mem_map_of_mem hmem }

theorem Known.bytes_fresh (h : t.Known) (kind : OpKind) : t.bytes kind (t.opId_ kind) = 0 := by
  rw [bytes, List.filter_eq_nil_iff.mpr]
  · rfl
  · intro p hp hfor
    rcases Posted.isFor_iff.mp hfor with ⟨rfl, hid⟩
    exact Nat.ne_of_lt (h.posted p hp) hid

theorem Known.pushed (h : t.Known) (kind : OpKind) (a : OpArgs) (lkeys : List ℕ)
    (hget : kind = .get → a.notify = false) : (t.pushed kind a lkeys).Known := by
  have hissued : (t.pushed kind a lkeys).issued =
      t.issued ++ [OpInfo.entry kind (t.newOp kind a lkeys)] := rfl
  have hnew : ∀ i ∈ t.issued, i.kind = kind → i.id ≠ t.opId_ kind := by
    rintro i hi rfl
    exact Nat.ne_of_lt (h.fresh i hi)
  have hlive : ∀ k, ∀ op ∈ (t.pushed kind a lkeys).live k,
      op ∈ t.live k ∨ k = kind ∧ op = t.newOp kind a lkeys := by
    intro k op hop
    by_cases hk : k = kind
    · subst hk
      rw [pushed_live_self, List.mem_append, List.mem_singleton] at hop
      exact hop.imp_right fun heq => ⟨rfl, heq⟩
    · rw [CtranIbVirtualConn.live, pushed_ops_of_ne t a lkeys hk] at hop
      exact Or.inl hop
  exact {
    live := by
      intro k op hop
      rw [hissued, List.mem_append, List.mem_singleton]
      rcases hlive k op hop with hold | ⟨rfl, rfl⟩
      · exact Or.inl (h.live k op hold)
      · exact Or.inr rfl
    fast := by
      intro k f hf
      have hf' : f ∈ (t.ops k).fast := by
        by_cases hk : k = kind
        · subst hk
          rwa [pushed_ops_self] at hf
        · rwa [pushed_ops_of_ne t a lkeys hk] at hf
      rcases h.fast k f hf' with ⟨i, hi, hrest⟩
      exact ⟨i, List.mem_append_left _ hi, hrest⟩
    unique := by
      intro i hi i' hi' hk hid
      rw [hissued, List.mem_append, List.mem_singleton] at hi hi'
      rcases hi with hi | rfl
      · rcases hi' with hi' | rfl
        · exact h.unique i hi i' hi' hk hid
        · exact absurd hid (hnew i hi hk)
      · rcases hi' with hi' | rfl
        · exact absurd hid.symm (hnew i' hi' hk.symm)
        · rfl
    fresh := by
      intro i hi
      rw [hissued, List.mem_append, List.mem_singleton] at hi
      rcases hi with hi | rfl
      · exact Nat.lt_of_lt_of_le (h.fresh i hi) (le_bump t kind _)
      · change t.opId_ kind < Function.update t.opId_ kind (t.opId_ kind + 1) kind
        rw [Function.update_self]
        exact Nat.lt_succ_self _
    gets := by
      intro op hop
      rcases hlive .get op hop with hold | ⟨hk, rfl⟩
      · exact h.gets op hold
      · exact hget hk.symm
    wire := h.wire
    posted := fun p hp => Nat.lt_of_lt_of_le (h.posted p hp) (le_bump t kind _)
    started := by
      intro k op hop
      change t.bytes k op.id = op.offset
      rcases hlive k op hop with hold | ⟨rfl, rfl⟩
      · exact h.started k op hold
      · exact h.bytes_fresh k
    finished := by
      intro i hi hgone
      change t.bytes i.kind i.id = i.len
      rw [hissued, List.mem_append, List.mem_singleton] at hi
      rcases hi with hi | rfl
      · apply h.finished i hi
        intro hlive'
        apply hgone
        by_cases hk : i.kind = kind
        · subst hk
          rw [liveIds, pushed_live_self, List.map_append]
          exact List.mem_append_left _ hlive'
        · rwa [liveIds, CtranIbVirtualConn.live, pushed_ops_of_ne t a lkeys hk]
      · exfalso
        apply hgone
        change t.opId_ kind ∈ (t.pushed kind a lkeys).liveIds kind
        rw [liveIds, pushed_live_self, List.map_append]
        exact List.mem_append_right _ (List.mem_singleton.mpr rfl) }

theorem newFast_length (t : CtranIbVirtualConn) (kind : OpKind) (a : OpArgs) (lkeys : List ℕ) :
    (t.newFast kind a lkeys).wr.length = a.len := by
  cases kind <;> rfl

theorem Known.fastPosted (h : t.Known) (hcons : t.Consistent) (kind : OpKind) (a : OpArgs)
    (lkeys : List ℕ) : (t.fastPosted kind a lkeys).Known := by
  have hissued : (t.fastPosted kind a lkeys).issued = t.issued ++
      [⟨kind, t.opId_ kind, a.len, a.notify, t.cfg.getOpVcMode a.config, true⟩] := rfl
  have hposted : (t.fastPosted kind a lkeys).posted = t.posted ++ [t.newFast kind a lkeys] := rfl
  have hnew : ∀ i ∈ t.issued, i.kind = kind → i.id ≠ t.opId_ kind := by
    rintro i hi rfl
    exact Nat.ne_of_lt (h.fresh i hi)
  have hbytes : ∀ k id, (t.fastPosted kind a lkeys).bytes k id =
      t.bytes k id + if kind = k ∧ t.opId_ kind = id then a.len else 0 := by
    intro k id
    rw [bytes_append hposted, newFast_kind, newFast_length]
    rfl
  have hnext : t.opId_ kind < (t.fastPosted kind a lkeys).opId_ kind := by
    change t.opId_ kind < Function.update t.opId_ kind (t.opId_ kind + 1) kind
    rw [Function.update_self]
    exact Nat.lt_succ_self _
  exact {
    live := by
      intro k op hop
      rw [fastPosted_live] at hop
      exact List.mem_append_left _ (h.live k op hop)
    fast := by
      intro k f hf
      have hold : f ∈ (t.ops k).fast → ∃ i ∈ (t.fastPosted kind a lkeys).issued,
          i.kind = k ∧ i.id = f.id ∧ i.fast = true := by
        intro hf'
        rcases h.fast k f hf' with ⟨i, hi, hrest⟩
        exact ⟨i, List.mem_append_left _ hi, hrest⟩
      by_cases hk : k = kind
      · subst hk
        rw [fastPosted_ops_self, List.mem_append, List.mem_singleton] at hf
        rcases hf with hf | rfl
        · exact hold hf
        · exact ⟨_, List.mem_append_right _ (List.mem_singleton.mpr rfl), rfl, rfl, rfl⟩
      · rw [fastPosted_ops_of_ne t a lkeys hk] at hf
        exact hold hf
    unique := by
      intro i hi i' hi' hk hid
      rw [hissued, List.mem_append, List.mem_singleton] at hi hi'
      rcases hi with hi | rfl
      · rcases hi' with hi' | rfl
        · exact h.unique i hi i' hi' hk hid
        · exact absurd hid (hnew i hi hk)
      · rcases hi' with hi' | rfl
        · exact absurd hid.symm (hnew i' hi' hk.symm)
        · rfl
    fresh := by
      intro i hi
      rw [hissued, List.mem_append, List.mem_singleton] at hi
      rcases hi with hi | rfl
      · exact Nat.lt_of_lt_of_le (h.fresh i hi) (le_bump t kind _)
      · exact hnext
    gets := by
      rw [fastPosted_live]
      exact h.gets
    wire := by
      intro p hp
      rw [fastPosted_wire, List.mem_append] at hp
      rw [hposted, List.mem_append]
      exact hp.imp_left (h.wire p)
    posted := by
      intro p hp
      rw [hposted, List.mem_append, List.mem_singleton] at hp
      rcases hp with hp | rfl
      · exact Nat.lt_of_lt_of_le (h.posted p hp) (le_bump t kind _)
      · rw [newFast_kind]
        exact hnext
    started := by
      intro k op hop
      rw [fastPosted_live] at hop
      rw [hbytes, if_neg, Nat.add_zero]
      · exact h.started k op hop
      · rintro ⟨rfl, hid⟩
        exact Nat.ne_of_gt (hcons.fresh _ _ (List.mem_map_of_mem hop)) hid
    finished := by
      intro i hi hgone
      rw [liveIds, fastPosted_live] at hgone
      rw [hbytes]
      rw [hissued, List.mem_append, List.mem_singleton] at hi
      rcases hi with hi | rfl
      · rw [if_neg fun hc => hnew i hi hc.1.symm hc.2.symm, Nat.add_zero]
        exact h.finished i hi hgone
      · rw [if_pos ⟨rfl, rfl⟩, h.bytes_fresh kind, Nat.zero_add] }

theorem Known.retireWqe (h : t.Known) (p : Posted) : (t.retireWqe p).Known := by
  have hlive : ∀ k, ∀ op ∈ (t.retireWqe p).live k, ∃ op' ∈ t.live k, op = op' ∨ op = op'.retire p.id := by
    intro k op hop
    by_cases hk : k = p.kind
    · subst hk
      rw [retireWqe_live_self, List.mem_map] at hop
      rcases hop with ⟨op', hop', rfl⟩
      exact ⟨op', hop', Or.inr rfl⟩
    · rw [CtranIbVirtualConn.live, retireWqe_ops_of_ne t p hk] at hop
      exact ⟨op, hop, Or.inl rfl⟩
  have hretire : ∀ (op : OpInfo), (∀ kind, OpInfo.entry kind (op.retire p.id) = OpInfo.entry kind op) ∧
      (op.retire p.id).notify = op.notify ∧ (op.retire p.id).offset = op.offset := by
    intro op
    unfold OpInfo.retire
    split <;> exact ⟨fun _ => rfl, rfl, rfl⟩
  exact {
    live := by
      intro k op hop
      rcases hlive k op hop with ⟨op', hop', rfl | rfl⟩
      · exact h.live k op hop'
      · rw [(hretire op').1]
        exact h.live k op' hop'
    fast := by
      intro k f hf
      apply h.fast k f
      by_cases hk : k = p.kind
      · subst hk
        rwa [retireWqe_ops_self] at hf
      · rwa [retireWqe_ops_of_ne t p hk] at hf
    __ := h
    gets := by
      intro op hop
      rcases hlive .get op hop with ⟨op', hop', rfl | rfl⟩
      · exact h.gets op hop'
      · rw [(hretire op').2.1]
        exact h.gets op' hop'
    wire := fun p' hp' => h.wire p' (List.mem_of_mem_eraseP hp')
    started := by
      intro k op hop
      change t.bytes k op.id = op.offset
      rcases hlive k op hop with ⟨op', hop', rfl | rfl⟩
      · exact h.started k op hop'
      · rw [(hretire op').2.2, OpInfo.id_retire]
        exact h.started k op' hop'
    finished := by
      intro i hi hgone
      rw [retireWqe_liveIds] at hgone
      exact h.finished i hi hgone }

theorem Known.retireFast (h : t.Known) (hf : (t.ops p.kind).fast = f :: fs) :
    (t.retireFast p f fs).Known := by
  have hlive : ∀ k, (t.retireFast p f fs).live k = t.live k := by
    intro k
    rcases retireFast_queues t p f fs k with ⟨hpend, hout⟩
    rw [CtranIbVirtualConn.live, hpend, hout]
    rfl
  exact {
    live := by
      intro k op hop
      rw [hlive] at hop
      exact h.live k op hop
    fast := by
      intro k f' hf'
      apply h.fast k f'
      by_cases hk : k = p.kind
      · subst hk
        rw [retireFast_ops_self] at hf'
        rw [hf]
        exact List.mem_cons_of_mem _ hf'
      · rwa [retireFast_ops_of_ne t p f fs hk] at hf'
    __ := h
    gets := by
      rw [hlive]
      exact h.gets
    wire := fun p' hp' => h.wire p' (List.mem_of_mem_eraseP hp')
    started := by
      intro k op hop
      rw [hlive] at hop
      exact h.started k op hop
    finished := by
      intro i hi hgone
      rw [liveIds, hlive] at hgone
      exact h.finished i hi hgone }

theorem burnOne_live (hout : (t.ops kind).outstanding = op :: rest) :
    t.live kind = op :: (t.burnOne kind op rest).live kind ∧
      ∀ k, k ≠ kind → (t.burnOne kind op rest).live k = t.live k := by
  constructor
  · simp only [CtranIbVirtualConn.live, burnOne_ops_self, hout, List.cons_append]
  · intro k hk
    simp only [CtranIbVirtualConn.live, burnOne_ops_of_ne t op rest hk]

theorem mem_live_of_burnOne (hout : (t.ops kind).outstanding = op :: rest) {op' : OpInfo}
    (hop' : op' ∈ (t.burnOne kind op rest).live k) : op' ∈ t.live k := by
  rcases burnOne_live hout with ⟨hself, hother⟩
  by_cases hk : k = kind
  · subst hk
    rw [hself]
    exact List.mem_cons_of_mem _ hop'
  · rwa [hother k hk] at hop'

theorem Known.burnOne (h : t.Known) (hout : (t.ops kind).outstanding = op :: rest)
    (hlen : op.offset = op.len) : (t.burnOne kind op rest).Known := by
  have hsame := sameData_finishOp t kind op
  have hissued : (t.burnOne kind op rest).issued = t.issued := hsame.issued
  have hposted : (t.burnOne kind op rest).posted = t.posted := hsame.posted
  have hmem : op ∈ t.live kind := by simp [CtranIbVirtualConn.live, hout]
  rcases burnOne_live hout with ⟨hself, hother⟩
  exact {
    live := by
      intro k op' hop'
      rw [hissued]
      exact h.live k op' (mem_live_of_burnOne hout hop')
    fast := by
      intro k f hf
      rw [hissued]
      apply h.fast k f
      by_cases hk : k = kind
      · subst hk
        rwa [burnOne_ops_self] at hf
      · rwa [burnOne_ops_of_ne t op rest hk] at hf
    unique := by
      rw [hissued]
      exact h.unique
    fresh := by
      rw [hissued]
      intro i hi
      have hid : (t.burnOne kind op rest).opId_ = t.opId_ := hsame.opId
      rw [hid]
      exact h.fresh i hi
    gets := fun op' hop' => h.gets op' (mem_live_of_burnOne hout hop')
    wire := by
      have hwire : (t.burnOne kind op rest).wire = t.wire := hsame.wire
      rw [hwire, hposted]
      exact h.wire
    posted := by
      have hid : (t.burnOne kind op rest).opId_ = t.opId_ := hsame.opId
      rw [hposted, hid]
      exact h.posted
    started := by
      intro k op' hop'
      rw [bytes, hposted]
      exact h.started k op' (mem_live_of_burnOne hout hop')
    finished := by
      intro i hi hgone
      rw [hissued] at hi
      rw [bytes, hposted]
      by_cases hin : i.id ∈ t.liveIds i.kind
      · by_cases hk : i.kind = kind
        · rw [hk, liveIds, hself, List.map_cons, List.mem_cons] at hin
          rcases hin with hid | hin
          · -- The operation that has just gone.
            have hentry := h.unique i hi _ (h.live kind op hmem) hk hid
            rw [hk, hid]
            have hlen' : i.len = op.len := by rw [hentry]; rfl
            rw [hlen', ← hlen]
            exact h.started kind op hmem
          · rw [hk] at hgone
            exact absurd hin hgone
        · rw [liveIds, hother _ hk] at hgone
          exact absurd hin hgone
      · exact h.finished i hi hin }

theorem Known.change (h : t.Known) (hsound : t.Sound) (hchange : Change t t') : t'.Known := by
  cases hchange with
  | posting _ kind hpost =>
    cases hpost with
    | robin i hi => exact h.of_same rfl (fun _ => Nat.le_refl _) rfl rfl rfl
    | wqe i op rest hi hp => exact h.postWqe hsound.toConsistent hp i
  | burning _ kind hburn =>
    cases hburn with
    | one op rest hfast hout hzero hlen => exact h.burnOne hout hlen
  | bump kind => exact h.of_same rfl (le_bump t kind) rfl rfl rfl
  | push kind a lkeys hget => exact h.pushed kind a lkeys hget
  | fast kind a lkeys hget hvalid => exact h.fastPosted hsound.toConsistent kind a lkeys
  | wqe p hp hfast => exact h.retireWqe p
  | fastDone p f fs hp hfast hf => exact h.retireFast hf
  | notify req => exact h.of_sameData (sameData_notify t req)
  | noticed n ns hout => exact h.of_sameData (sameData_noticed t n ns)

end CtranIbVirtualConn
end TorchComms.CtranIb
