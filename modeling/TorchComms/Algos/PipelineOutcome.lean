import TorchComms.Algos.PipelineGather

/-! # The outcome of the pipeline

Masking with `nRanks - 1` is only right when the number of ranks is a power of two. Then every rank
has every block when its stream is done with an execution, whatever the order of the steps, as long
as it does not start the next one over its own puts: with more than one rank in a node, the stream
does not wait for the end of the thread.
-/
namespace TorchComms.Algos.AllGatherP

open Foundation

variable {c : Config} {β : Type}

/-- No execution starts while puts of the rank are in flight. -/
def Clear (_ : List Op) (s : State β) : Op → Prop
  | .stream r => (s.rank r).stream = .idle → s.flight r = []
  | _ => True

instance (past : List Op) (s : State β) (op : Op) : Decidable (Clear past s op) := by
  cases op <;> unfold Clear <;> infer_instance

/-- A put reads what its rank has been notified of, a round of the stream forwards the block of its
step to where the put has it, and a stream that is done with an execution leaves every block. -/
structure Gathered (j : Calls c β) (s : State β) : Prop where
  puts : ∀ r < c.nRanks, ∀ q ∈ s.flight r, ∃ e step, (s.rank r).runs = e + 1 ∧
    q = j.put e r step ∧ step ≤ (s.rank r).gpe.consumed c ∧
    q.offset = c.origin r step * j.sendSize e ∧
    ∀ i < j.sendSize e, s.read r q.src i = j.sendData e (c.origin r step) i
  forwards : ∀ r < c.nRanks, ∀ e round p, (s.rank r).calls = e + 1 →
    (s.rank r).stream = .copy round p →
    (j.bcast e r round).2 = c.origin r round * j.sendSize e ∧
    (0 < round → (j.bcast e r round).2 = (j.put e (c.upPeer r) (round - 1)).offset) ∧
    ∀ i < j.sendSize e, s.read r (j.bcast e r round).1 i = j.sendData e (c.origin r round) i
  results : ∀ r < c.nRanks, ∀ e, (s.rank r).calls = e + 1 → (s.rank r).stream = .idle →
    ∀ b < c.nRanks, ∀ i < j.sendSize e,
      s.recvbuff r (b * j.sendSize e + i) = j.sendData e b i

namespace Inv

variable {j : Calls c β} {s : State β} {r e : ℕ}

section

variable (h : Inv j s)
include h

theorem puts (hreg : c.Regular) (hr : r < c.nRanks) {q : Put}
    (hq : q ∈ s.flight r) : ∃ e step, (s.rank r).runs = e + 1 ∧
      q = j.put e r step ∧ step ≤ (s.rank r).gpe.consumed c ∧
      q.offset = c.origin r step * j.sendSize e ∧
      ∀ i < j.sendSize e, s.read r q.src i = j.sendData e (c.origin r step) i := by
  have hok := h.sync.ranks r hr
  have hissued := hok.gpe.issued_le
  have hconsumed := (s.rank r).gpe.issued_le (c := c)
  rcases List.exists_cons_of_ne_nil (List.ne_nil_of_mem hq) with ⟨first, rest, hflight⟩
  rcases h.first_put hr hflight with ⟨e, m, hcalls, hruns, _⟩
  rcases hok.flying with ⟨n, hn, hall⟩
  rw [hall, hruns, Nat.add_sub_cancel] at hq
  rcases List.mem_map.mp hq with ⟨step, hstep, rfl⟩
  rw [List.mem_range'_1] at hstep
  have hmasks : c.Masks := hreg.masks.resolve_left (by omega)
  have hrail : (s.rank r).rail c (s.notified r) =
      (s.rank r).gpe.consumed c + s.notified r := if_pos (hruns.trans hcalls.symm)
  refine ⟨e, step, hruns, rfl, by omega, ?_, h.read_put hreg hr hcalls (by omega) (by omega)⟩
  simp only [Calls.put]
  rw [hmasks.chunk r (by omega)]

theorem forwards (hreg : c.Regular) (hr : r < c.nRanks)
    (he : (s.rank r).calls = e + 1) {round p : ℕ} (hpc : (s.rank r).stream = .copy round p) :
    (j.bcast e r round).2 = c.origin r round * j.sendSize e ∧
      (0 < round → (j.bcast e r round).2 = (j.put e (c.upPeer r) (round - 1)).offset) ∧
      ∀ i < j.sendSize e, s.read r (j.bcast e r round).1 i = j.sendData e (c.origin r round) i := by
  have hvalid := (h.sync.ranks r hr).stream
  rw [hpc] at hvalid
  have hround : round < c.nNodes := hvalid.2.1
  rcases h.read_bcast hreg hr he hpc with ⟨hoffset, hread⟩
  refine ⟨hoffset, ?_, hread⟩
  intro hpos
  obtain ⟨step, rfl⟩ : ∃ step, round = step + 1 := ⟨round - 1, by omega⟩
  have hmasks : c.Masks := hreg.masks.resolve_left (by omega)
  simp only [Calls.bcast, Calls.put, Nat.add_sub_cancel, hmasks.execUpPeer]

theorem landed_rail (hr : r < c.nRanks) (he : (s.rank r).calls = e + 1)
    (hidle : (s.rank r).stream = .idle) {k : ℕ} (hk : k < c.nNodes) :
    Landed j s.rank s.notified r (c.origin r k) := by
  by_cases hzero : k = 0
  · subst hzero
    refine .own (Config.origin_zero hr) (Or.inr ?_)
    rw [hidle]
    trivial
  · have hseen : (s.rank r).stream.seen c = c.nNodes - 1 := by
      rw [hidle]
      rfl
    rcases (h.sync.ranks r hr).runs_eq (by omega) (by omega) with ⟨hruns, hposted⟩
    have hconsumed := (s.rank r).gpe.posted_le_consumed (c := c)
    have hrail : (s.rank r).rail c (s.notified r) =
        (s.rank r).gpe.consumed c + s.notified r := if_pos hruns
    exact .rail rfl (by omega) (by omega) hk

theorem results (hr : r < c.nRanks) (he : (s.rank r).calls = e + 1)
    (hidle : (s.rank r).stream = .idle) {b : ℕ} (hb : b < c.nRanks) :
    BlockIs (s.recvbuff r) (j.sendSize e) b (j.sendData e b) := by
  apply (h.filled r hr e he).2
  -- the rank of the node that is in the rail of the block
  have hpeer : ∃ a < c.nRanks, c.SameNode a r ∧ c.SameRail b a := by
    have hlocal := c.local_lt b
    have hnode : c.SameNode (c.localRankToRank r (b % c.nLocalRanks)) r :=
      Config.localRankToRank_node hlocal
    exact ⟨_, Config.lt_of_sameNode hnode hr, hnode, (Config.local_of hlocal).symm⟩
  rcases hpeer with ⟨a, ha, hnode, hrail⟩
  rcases Config.exists_origin ha hb hrail with ⟨k, hk, rfl⟩
  by_cases har : a = r
  · subst har
    exact h.landed_rail hr he hidle hk
  · rcases Config.exists_localPeer hnode har with ⟨p, hpos, hp, hto⟩
    have hL := Config.one_lt_of_sameNode hnode har
    refine .peer rfl ha hnode ⟨hpos, hp⟩ hto hk ?_
    rcases h.sync.sent_of_idle (p := p) ha hr hnode hL hidle hk with hlt | ⟨heq, hsent⟩
    · exact Or.inl hlt
    · exact Or.inr ⟨heq, hsent⟩

theorem gathered (hreg : c.Regular) : Gathered j s where
  puts := fun _ hr _ hq => h.puts hreg hr hq
  forwards := fun _ hr _ _ _ he hpc => h.forwards hreg hr he hpc
  results := fun _ hr _ he hidle _ hb => h.results hr he hidle hb

theorem step (hreg : c.Regular) {past : List Op} {op : Op} (hop : Clear past s op) :
    ∃ s', s.step j op = .ok s' ∧ Inv j s' := by
  cases op with
  | stream r =>
    by_cases hr : r < c.nRanks
    · rw [State.step, if_pos hr]
      exact h.streamStep hreg hr hop
    · rw [State.step, if_neg hr]
      exact ⟨s, rfl, h⟩
  | gpe r =>
    by_cases hr : r < c.nRanks
    · rw [State.step, if_pos hr]
      exact ⟨_, rfl, h.gpeStep hr⟩
    · rw [State.step, if_neg hr]
      exact ⟨s, rfl, h⟩
  | deliver r =>
    by_cases hr : r < c.nRanks
    · rw [State.step, if_pos hr]
      exact h.deliver hreg hr
    · rw [State.step, if_neg hr]
      exact ⟨s, rfl, h⟩

end

theorem initial (j : Calls c β) (sendbuff recvbuff : ℕ → ℕ → β) :
    Inv j { sendbuff := sendbuff, recvbuff := recvbuff } where
  sync := Sync.initial j
  filled := fun _ _ _ he => nomatch he

end Inv

/-- Clusters in which all local ranks reach each other, with blocks of one byte sent in place. -/
def sample (nNodes nLocalRanks : ℕ) (hN : 1 ≤ nNodes) (hL : 1 ≤ nLocalRanks) : Config where
  nNodes := nNodes
  nLocalRanks := nLocalRanks
  nNodes_pos := hN
  nLocalRanks_pos := hL
  maxRecvSize := nNodes * nLocalRanks
  isNvl := fun _ _ => true

def sampleCalls (c : Config) (h : c.nRanks ≤ c.maxRecvSize) : Calls c ℕ where
  sendSize := fun _ => 1
  inPlace := fun _ _ => true
  sendData := fun e r _ => 100 * (e + 1) + r
  fits := fun _ => by rwa [Nat.mul_one]

/-- Every rank of `n` takes a step, its puts arrive if `p` says so. -/
def sampleRound (n : ℕ) (p : ℕ → Bool) : List Op :=
  (List.range n).flatMap fun r => [.stream r, .gpe r] ++ if p r then [.deliver r] else []

/-- The first execution of rank `r` is done and its block `b` is not that of rank `b`. -/
def misses (c : Config) (h : c.nRanks ≤ c.maxRecvSize) (ops : List Op) (r b : ℕ) : Bool :=
  match run (State.step (sampleCalls c h)) { sendbuff := fun _ _ => 0, recvbuff := fun _ _ => 0 }
    ops with
  | .ok s => (s.rank r).calls = 1 ∧ (s.rank r).stream = .idle ∧ s.recvbuff r b ≠ 100 + b
  | .error _ => false

theorem not_gathered_of_misses (c : Config) (h : c.nRanks ≤ c.maxRecvSize) (ops : List Op) (r b : ℕ)
    (hr : r < c.nRanks) (hb : b < c.nRanks) (hmiss : misses c h ops r b = true) :
    ¬ ∃ s, run (State.step (sampleCalls c h))
        { sendbuff := fun _ _ => 0, recvbuff := fun _ _ => 0 } ops = .ok s ∧
      Gathered (sampleCalls c h) s := by
  rintro ⟨s, hrun, hs⟩
  simp only [misses, hrun, decide_eq_true_eq] at hmiss
  rcases hmiss with ⟨hcalls, hidle, hne⟩
  have hblock := hs.results r hr 0 hcalls hidle b hb 0 Nat.one_pos
  simp only [sampleCalls, Nat.mul_one, Nat.add_zero, Nat.zero_add] at hblock
  exact hne hblock

end TorchComms.Algos.AllGatherP
