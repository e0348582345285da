import TorchComms.Algos.PipelineSync
import TorchComms.Foundation.Run

/-! # What the pipeline gathers

A block that has landed in the receive buffer of a rank is the data of its owner. Nothing but the
copies of the own execution reaches the buffer, as long as no execution starts while puts of the
last one are still in flight.
-/
namespace TorchComms.Algos.AllGatherP

open Foundation

variable {c : Config} {β : Type}

/-- The own block is in the receive buffer also when it is not sent in place. -/
def StreamPc.Past : StreamPc → Prop
  | .hold | .copyToSelf => False
  | _ => True

/-- The blocks of the rail that have come to a rank in the execution of its stream. -/
def Rank.rail (c : Config) (x : Rank) (notified : ℕ) : ℕ :=
  if x.runs = x.calls then x.gpe.consumed c + notified else 0

/-- The blocks that are in the receive buffer of the rank `r`: the own one, those of the rail, and
those that ranks of the node have copied. -/
inductive Landed (j : Calls c β) (rank : ℕ → Rank) (notified : ℕ → ℕ) (r b : ℕ) : Prop
  | own (hb : b = r) (h : j.inPlace ((rank r).calls - 1) r ∨ (rank r).stream.Past)
  | rail {k : ℕ} (hb : b = c.origin r k) (hpos : 1 ≤ k) (hk : k ≤ (rank r).rail c (notified r))
      (hN : k < c.nNodes)
  | peer {a p round : ℕ} (hb : b = c.origin a round) (ha : a < c.nRanks) (hnode : c.SameNode a r)
      (hp : 1 ≤ p ∧ p < c.nLocalRanks) (hpeer : c.localPeer a p = r) (hround : round < c.nNodes)
      (h : (rank r).calls < (rank a).calls ∨
        (rank r).calls = (rank a).calls ∧ (rank a).stream.Sent round p)

/-- The buffers hold the data of the execution, where it has landed. -/
def Filled (j : Calls c β) (rank : ℕ → Rank) (notified : ℕ → ℕ) (sendbuff recvbuff : ℕ → ℕ → β) :
    Prop :=
  ∀ r < c.nRanks, ∀ e, (rank r).calls = e + 1 →
    (j.inPlace e r = false → sendbuff r = j.sendData e r) ∧
    ∀ b, Landed j rank notified r b → BlockIs (recvbuff r) (j.sendSize e) b (j.sendData e b)

section Changes

variable {j : Calls c β} {rank rank' : ℕ → Rank} {notified notified' : ℕ → ℕ} {a b r : ℕ} {x : Rank}
  {sendbuff recvbuff : ℕ → ℕ → β}

/-! ### What lands -/

theorem Landed.of_gpe (h : Landed j rank' notified' r b)
    (hcalls : ∀ r, (rank' r).calls = (rank r).calls)
    (hstream : ∀ r, (rank' r).stream = (rank r).stream)
    (hrail : ∀ r, (rank' r).rail c (notified' r) ≤ (rank r).rail c (notified r)) :
    Landed j rank notified r b := by
  cases h with
  | own hb h =>
    rw [hcalls, hstream] at h
    exact .own hb h
  | rail hb hpos hk hN => exact .rail hb hpos (hk.trans (hrail r)) hN
  | peer hb ha hnode hp hpeer hround h =>
    rw [hcalls, hcalls, hstream] at h
    exact .peer hb ha hnode hp hpeer hround h

theorem Landed.of_stream (h : Landed j (Function.update rank a x) notified r b)
    (hcalls : x.calls = (rank a).calls) (hruns : x.runs = (rank a).runs)
    (hgpe : x.gpe = (rank a).gpe) :
    Landed j rank notified r b ∨ (r = a ∧ b = a ∧ x.stream.Past ∧ ¬ (rank a).stream.Past) ∨
      ∃ p round, (1 ≤ p ∧ p < c.nLocalRanks) ∧ r = c.localPeer a p ∧ round < c.nNodes ∧
        b = c.origin a round ∧ x.stream.Sent round p ∧ ¬ (rank a).stream.Sent round p := by
  have hcalls' := update_apply_eq rank (f := Rank.calls) hcalls
  cases h with
  | own hb h =>
    rw [hcalls'] at h
    rcases h with h | h
    · exact Or.inl (.own hb (Or.inl h))
    · by_cases hra : r = a
      · subst hra
        rw [Function.update_self] at h
        by_cases hpast : (rank r).stream.Past
        · exact Or.inl (.own hb (Or.inr hpast))
        · exact Or.inr (Or.inl ⟨rfl, hb, h, hpast⟩)
      · rw [Function.update_of_ne hra] at h
        exact Or.inl (.own hb (Or.inr h))
  | rail hb hpos hk hN =>
    have hrail : (Function.update rank a x r).rail c (notified r) =
        (rank r).rail c (notified r) := by
      apply update_apply_eq rank (f := fun x => x.rail c (notified r))
      simp only [Rank.rail, hcalls, hruns, hgpe]
    rw [hrail] at hk
    exact Or.inl (.rail hb hpos hk hN)
  | @peer a' p round hb ha hnode hp hpeer hround h =>
    rw [hcalls', hcalls'] at h
    rcases h with h | ⟨heq, h⟩
    · exact Or.inl (.peer hb ha hnode hp hpeer hround (Or.inl h))
    · by_cases haa : a' = a
      · subst haa
        rw [Function.update_self] at h
        by_cases hsent : (rank a').stream.Sent round p
        · exact Or.inl (.peer hb ha hnode hp hpeer hround (Or.inr ⟨heq, hsent⟩))
        · exact Or.inr (Or.inr ⟨p, round, hp, hpeer.symm, hround, hb, h, hsent⟩)
      · rw [Function.update_of_ne haa] at h
        exact Or.inl (.peer hb ha hnode hp hpeer hround (Or.inr ⟨heq, h⟩))

theorem Landed.of_deliver
    (h : Landed j rank (Function.update notified a (notified a + 1)) r b)
    (hruns : (rank a).runs = (rank a).calls) :
    Landed j rank notified r b ∨
      r = a ∧ b = c.origin a ((rank a).gpe.consumed c + notified a + 1) := by
  cases h with
  | own hb h => exact Or.inl (.own hb h)
  | @rail k hb hpos hk hN =>
    by_cases hra : r = a
    · subst hra
      have hold : (rank r).rail c (notified r) = (rank r).gpe.consumed c + notified r := if_pos hruns
      have hnew : (rank r).rail c (notified r + 1) = (rank r).gpe.consumed c + (notified r + 1) :=
        if_pos hruns
      rw [Function.update_self, hnew] at hk
      rcases Nat.lt_or_ge ((rank r).gpe.consumed c + notified r) k with hlt | hge
      · have heq : k = (rank r).gpe.consumed c + notified r + 1 := by omega
        rw [← heq]
        exact Or.inr ⟨rfl, hb⟩
      · exact Or.inl (.rail hb hpos (by omega) hN)
    · rw [Function.update_of_ne hra] at hk
      exact Or.inl (.rail hb hpos hk hN)
  | peer hb ha hnode hp hpeer hround h => exact Or.inl (.peer hb ha hnode hp hpeer hround h)

/-! ### What the buffers hold -/

section

variable (h : Filled j rank notified sendbuff recvbuff)
include h

theorem Filled.of_landed
    (hcalls : ∀ r, (rank' r).calls = (rank r).calls)
    (hlanded : ∀ r < c.nRanks, ∀ b, Landed j rank' notified' r b → Landed j rank notified r b) :
    Filled j rank' notified' sendbuff recvbuff := by
  intro r hr e he
  rw [hcalls] at he
  rcases h r hr e he with ⟨hsend, hblocks⟩
  exact ⟨hsend, fun b hb => hblocks b (hlanded r hr b hb)⟩

theorem Filled.of_gpe
    (hcalls : x.calls = (rank a).calls) (hstream : x.stream = (rank a).stream)
    (hrail : x.rail c (notified' a) ≤ (rank a).rail c (notified a))
    (hnotified : ∀ r, r ≠ a → notified' r = notified r) :
    Filled j (Function.update rank a x) notified' sendbuff recvbuff := by
  have hcalls' := update_apply_eq rank (f := Rank.calls) hcalls
  apply h.of_landed hcalls'
  intro r _ b hb
  apply hb.of_gpe hcalls' (update_apply_eq rank (f := Rank.stream) hstream)
  intro r'
  by_cases hra : r' = a
  · rw [hra, Function.update_self]
    exact hrail
  · rw [Function.update_of_ne hra, hnotified r' hra]

/-- A block is copied to the rank `a`. -/
theorem Filled.copy {e : ℕ} {src : ℕ → β}
    (he : (rank a).calls = e + 1) (hcalls : ∀ r, (rank' r).calls = (rank r).calls)
    (hsrc : ∀ i < j.sendSize e, src i = j.sendData e b i)
    (hlanded : ∀ r < c.nRanks, ∀ b', Landed j rank' notified' r b' →
      Landed j rank notified r b' ∨ r = a ∧ b' = b) :
    Filled j rank' notified' sendbuff (Function.update recvbuff a
      (blit (recvbuff a) (b * j.sendSize e) (j.sendSize e) src)) := by
  intro r hr e' he'
  rw [hcalls] at he'
  rcases h r hr e' he' with ⟨hsend, hblocks⟩
  refine ⟨hsend, ?_⟩
  intro b' hb'
  by_cases hra : r = a
  · subst hra
    have heq : e' = e := by omega
    subst heq
    rw [Function.update_self]
    by_cases hbb : b' = b
    · rw [hbb]
      exact blockIs_blit hsrc
    · rcases hlanded r hr b' hb' with hold | ⟨_, hnew⟩
      · exact (hblocks b' hold).blit_of_ne hbb src
      · exact absurd hnew hbb
  · rw [Function.update_of_ne hra]
    rcases hlanded r hr b' hb' with hold | ⟨hnew, _⟩
    · exact hblocks b' hold
    · exact absurd hnew hra

end

/-! ### A new execution -/

variable {flight : ℕ → List Put} {ready : ℕ → ℕ}

/-- A rank that starts an execution has nothing but what it sends in place; for the other ranks it
is done with the last one. -/
theorem Sync.landed_of_start
    (h : Sync j rank ready notified flight) (ha : a < c.nRanks) (hidle : (rank a).stream = .idle)
    (hcalls : x.calls = (rank a).calls + 1) (hpast : x.stream = .hold ∨ x.stream = .copyToSelf)
    (hruns : x.runs = (rank a).runs) (hgpe : x.gpe = (rank a).gpe)
    (hb : Landed j (Function.update rank a x) notified r b) :
    (r = a → b = a ∧ j.inPlace (rank a).calls a) ∧ (r ≠ a → Landed j rank notified r b) := by
  have hnotPast : ¬ x.stream.Past := by
    rcases hpast with hpc | hpc <;> rw [hpc] <;> exact not_false
  have hnotSent : ∀ round p, ¬ x.stream.Sent round p := by
    intro round p
    rcases hpast with hpc | hpc <;> rw [hpc] <;> exact not_false
  cases hb with
  | own hb h =>
    by_cases hra : r = a
    · subst hra
      rw [Function.update_self, hcalls, Nat.add_sub_cancel] at h
      rcases h with h | h
      · exact ⟨fun _ => ⟨hb, h⟩, fun hne => absurd rfl hne⟩
      · exact absurd h hnotPast
    · rw [Function.update_of_ne hra] at h
      exact ⟨fun heq => absurd heq hra, fun _ => .own hb h⟩
  | rail hb hpos hk hN =>
    by_cases hra : r = a
    · subst hra
      have hle := (h.ranks r ha).runs_le
      have hzero : x.rail c (notified r) = 0 := if_neg (by omega)
      rw [Function.update_self, hzero] at hk
      omega
    · rw [Function.update_of_ne hra] at hk
      exact ⟨fun heq => absurd heq hra, fun _ => .rail hb hpos hk hN⟩
  | @peer a' p round hb ha' hnode hp hpeer hround hcase =>
    by_cases haa : a' = a
    · subst haa
      rw [Function.update_self] at hcase
      by_cases hra : r = a'
      · subst hra
        rw [Function.update_self] at hcase
        rcases hcase with hlt | ⟨_, hsent⟩
        · exact absurd hlt (Nat.lt_irrefl _)
        · exact absurd hsent (hnotSent _ _)
      · rw [Function.update_of_ne hra, hcalls] at hcase
        refine ⟨fun heq => absurd heq hra, fun _ => .peer hb ha' hnode hp hpeer hround ?_⟩
        rcases hcase with hlt | ⟨_, hsent⟩
        · rcases Nat.lt_succ_iff_lt_or_eq.mp hlt with hlt | heq
          · exact Or.inl hlt
          · rw [hidle]
            exact Or.inr ⟨heq, trivial⟩
        · exact absurd hsent (hnotSent _ _)
    · rw [Function.update_of_ne haa] at hcase
      by_cases hra : r = a
      · subst hra
        rw [Function.update_self, hcalls] at hcase
        have hL := Config.one_lt_of_sameNode hnode haa
        have hle := h.calls_le_succ ha' ha hnode hL
        rcases hcase with hlt | ⟨heq, hsent⟩
        · omega
        · have hahead := h.ahead_of_lt ha' ha hnode hL (by omega)
          exact absurd hsent (StreamPc.not_sent_of_ahead ((Nat.le_add_right _ _).trans hahead))
      · rw [Function.update_of_ne hra] at hcase
        exact ⟨fun heq => absurd heq hra, fun _ => .peer hb ha' hnode hp hpeer hround hcase⟩

theorem Filled.start
    (h : Filled j rank notified sendbuff recvbuff) (hs : Sync j rank ready notified flight)
    (ha : a < c.nRanks) (hidle : (rank a).stream = .idle) (hcalls : x.calls = (rank a).calls + 1)
    (hpast : x.stream = .hold ∨ x.stream = .copyToSelf) (hruns : x.runs = (rank a).runs)
    (hgpe : x.gpe = (rank a).gpe) {sendbuff' recvbuff' : ℕ → ℕ → β}
    (hother : ∀ r, r ≠ a → sendbuff' r = sendbuff r ∧ recvbuff' r = recvbuff r)
    (hsend : j.inPlace (rank a).calls a = false → sendbuff' a = j.sendData (rank a).calls a)
    (hplace : j.inPlace (rank a).calls a → BlockIs (recvbuff' a) (j.sendSize (rank a).calls) a
      (j.sendData (rank a).calls a)) :
    Filled j (Function.update rank a x) notified sendbuff' recvbuff' := by
  intro r hr e he
  have hlanded := fun b => hs.landed_of_start (r := r) (b := b) ha hidle hcalls hpast hruns hgpe
  by_cases hra : r = a
  · subst hra
    rw [Function.update_self, hcalls, Nat.add_right_cancel_iff] at he
    subst he
    refine ⟨hsend, ?_⟩
    intro b hb
    rcases (hlanded b hb).1 rfl with ⟨rfl, hin⟩
    exact hplace hin
  · rw [Function.update_of_ne hra] at he
    rw [(hother r hra).1, (hother r hra).2]
    rcases h r hr e he with ⟨hold, hblocks⟩
    exact ⟨hold, fun b hb => hblocks b ((hlanded b hb).2 hra)⟩

end Changes

/-- Everything that holds of a state. -/
structure Inv (j : Calls c β) (s : State β) : Prop where
  sync : Sync j s.rank s.ready s.notified s.flight
  filled : Filled j s.rank s.notified s.sendbuff s.recvbuff

/-- Masks do no harm where they are used, and the ranks of a node reach each other by NVL. -/
structure Config.Regular (c : Config) : Prop where
  masks : c.nNodes = 1 ∨ c.Masks
  nvl : ∀ a < c.nRanks, ∀ b < c.nRanks, c.SameNode a b → c.isNvl a b

namespace Inv

variable {j : Calls c β} {s : State β} {r e k : ℕ}

/-! ### What is read -/

theorem read_block (h : Inv j s) (hr : r < c.nRanks) (he : (s.rank r).calls = e + 1) {b : ℕ}
    (hb : Landed j s.rank s.notified r b) :
    ∀ i < j.sendSize e, s.read r (.recvbuff (b * j.sendSize e)) i = j.sendData e b i :=
  (h.filled r hr e he).2 b hb

theorem read_sendPtr (h : Inv j s) (hr : r < c.nRanks) (he : (s.rank r).calls = e + 1) :
    ∀ i < j.sendSize e, s.read r (j.sendPtr e r) i = j.sendData e r i := by
  unfold Calls.sendPtr
  cases hplace : j.inPlace e r with
  | false =>
    rw [if_neg Bool.false_ne_true]
    intro i _
    exact congrFun ((h.filled r hr e he).1 hplace) i
  | true =>
    rw [if_pos rfl]
    exact h.read_block hr he (.own rfl (Or.inl (by rw [he, Nat.add_sub_cancel, hplace])))

theorem read_put (h : Inv j s) (hreg : c.Regular) (hr : r < c.nRanks)
    (he : (s.rank r).calls = e + 1) (hk : k ≤ (s.rank r).rail c (s.notified r))
    (hN : k + 1 < c.nNodes) :
    ∀ i < j.sendSize e, s.read r (j.put e r k).src i = j.sendData e (c.origin r k) i := by
  have hmasks : c.Masks := hreg.masks.resolve_left (by omega)
  simp only [Calls.put]
  by_cases hzero : k = 0
  · rw [if_pos hzero, hzero, Config.origin_zero hr]
    exact h.read_sendPtr hr he
  · rw [if_neg hzero, hmasks.chunk r (by omega)]
    exact h.read_block hr he (.rail rfl (by omega) hk (by omega))

variable {round p : ℕ}

theorem read_bcast (h : Inv j s) (hreg : c.Regular) (hr : r < c.nRanks)
    (he : (s.rank r).calls = e + 1) (hpc : (s.rank r).stream = .copy round p) :
    (j.bcast e r round).2 = c.origin r round * j.sendSize e ∧
      ∀ i < j.sendSize e, s.read r (j.bcast e r round).1 i = j.sendData e (c.origin r round) i := by
  have hok := h.sync.ranks r hr
  have hvalid := hok.stream
  rw [hpc] at hvalid
  have hround : round < c.nNodes := hvalid.2.1
  cases round with
  | zero =>
    simp only [Calls.bcast, Config.origin_zero hr]
    exact ⟨trivial, h.read_sendPtr hr he⟩
  | succ step =>
    have hmasks : c.Masks := hreg.masks.resolve_left (by omega)
    have hchunk : c.getRecvChunkIdxInRail (c.execUpPeer r) step = c.origin r (step + 1) := by
      rw [hmasks.execUpPeer, hmasks.chunk _ (by omega), Config.upPeer_eq hr,
        Config.origin_origin hr (by omega), Nat.add_comm]
    have hseen : (s.rank r).stream.seen c = step + 1 := by
      rw [hpc]
      rfl
    rcases hok.runs_eq (by omega) (by omega) with ⟨hruns, hposted⟩
    have hconsumed := (s.rank r).gpe.posted_le_consumed (c := c)
    have hrail : (s.rank r).rail c (s.notified r) =
        (s.rank r).gpe.consumed c + s.notified r := if_pos hruns
    simp only [Calls.bcast, hchunk]
    exact ⟨trivial, h.read_block hr he (.rail rfl (by omega) (by omega) hround)⟩

/-! ### Offsets -/

theorem block_fits (j : Calls c β) (e : ℕ) {b : ℕ} (hb : b < c.nRanks) :
    b * j.sendSize e + j.sendSize e ≤ c.maxRecvSize := by
  have hle := Nat.mul_le_mul_right (j.sendSize e) hb
  rw [Nat.succ_mul] at hle
  exact hle.trans (j.fits e)

theorem sendPtr_inRange (j : Calls c β) (e : ℕ) (hr : r < c.nRanks) :
    (j.sendPtr e r).InRange c (j.sendSize e) := by
  unfold Calls.sendPtr
  split
  · exact block_fits j e hr
  · trivial

theorem put_inRange (j : Calls c β) (e : ℕ) (hr : r < c.nRanks) :
    (j.put e r k).src.InRange c (j.put e r k).size ∧
      (j.put e r k).offset + (j.put e r k).size ≤ c.maxRecvSize := by
  have hfits := block_fits j e (Config.chunk_lt (a := r) (k := k) hr)
  refine ⟨?_, hfits⟩
  simp only [Calls.put]
  split
  · exact sendPtr_inRange j e hr
  · exact hfits

theorem bcast_inRange (j : Calls c β) (e round : ℕ) (hr : r < c.nRanks) :
    (j.bcast e r round).1.InRange c (j.sendSize e) ∧
      (j.bcast e r round).2 + j.sendSize e ≤ c.maxRecvSize := by
  cases round with
  | zero => exact ⟨sendPtr_inRange j e hr, block_fits j e hr⟩
  | succ step =>
    have hfits := block_fits j e (Config.chunk_lt (a := c.execUpPeer r) (k := step) hr)
    exact ⟨hfits, hfits⟩

/-! ### The steps of a stream -/

section

variable (h : Inv j s) (hr : r < c.nRanks)
include h hr

theorem start (hidle : (s.rank r).stream = .idle)
    (hflight : s.flight r = []) : Inv j (s.start j r) := by
  generalize hx : ({ s.rank r with
    calls := (s.rank r).calls + 1
    stream := if 1 < c.nNodes ∧ c.nLocalRanks = 1 then .hold else .copyToSelf } : Rank) = x
  have hcalls : x.calls = (s.rank r).calls + 1 := by rw [← hx]
  have hpast : x.stream = .hold ∨ x.stream = .copyToSelf := by
    rw [← hx]
    simp only
    split
    · exact Or.inl rfl
    · exact Or.inr rfl
  have hok := h.sync.ranks r hr
  rw [hflight] at hok
  have hstart := hok.start hidle
  rw [hx, ← hflight] at hstart
  have hsync : Sync j (Function.update s.rank r x) s.ready s.notified s.flight := by
    apply h.sync.stream hstart (by rw [← hx]) (by rw [← hx])
    apply h.sync.abreast.move hr (by rw [← hx])
    rw [hidle]
    exact Nat.zero_le _
  have hruns : x.runs = (s.rank r).runs := by rw [← hx]
  have hgpe : x.gpe = (s.rank r).gpe := by rw [← hx]
  unfold State.start
  simp only [State.setRank, hx]
  split
  · rename_i hplace
    refine ⟨hsync, h.filled.start h.sync hr hidle hcalls hpast hruns hgpe ?_ ?_ ?_⟩
    · exact fun r' hne => ⟨rfl, Function.update_of_ne hne _ _⟩
    · exact fun hnot => absurd hplace (by rw [hnot]; exact Bool.false_ne_true)
    · intro _
      simp only [Function.update_self]
      exact blockIs_blit fun _ _ => rfl
  · rename_i hplace
    refine ⟨hsync, h.filled.start h.sync hr hidle hcalls hpast hruns hgpe ?_ ?_ ?_⟩
    · exact fun r' hne => ⟨Function.update_of_ne hne _ _, rfl⟩
    · exact fun _ => Function.update_self ..
    · exact fun hin => absurd hin hplace

theorem stream_at {pc : StreamPc} (hpc : (s.rank r).stream = pc) (hidle : pc ≠ .idle) :
    0 < (s.rank r).calls ∧ pc.Valid c ∧ pc.seen c ≤ (s.rank r).posts c ∧
      (1 < c.nLocalRanks →
        (s.rank r).postFlag = if pc.reset c then -1 else ((s.rank r).posts c : ℤ) - 1) ∧
      ∀ b < c.nRanks, c.SameNode r b → (s.rank r).arrived ≤ (s.rank b).arrived + pc.awaiting := by
  have hok := h.sync.ranks r hr
  subst hpc
  exact ⟨hok.inside hidle, hok.stream, hok.seen (hok.inside hidle), hok.flag,
    h.sync.abreast r hr⟩

/-- A step of a stream that copies nothing, from `pc₀` to `pc`. -/
theorem move {pc₀ : StreamPc} (hpc : (s.rank r).stream = pc₀)
    (hidle : pc₀ ≠ .idle) (pc : StreamPc) (n : ℕ) (f : ℤ) (hvalid : pc.Valid c)
    (hseen : pc.seen c ≤ (s.rank r).posts c)
    (hflag : 1 < c.nLocalRanks → f = if pc.reset c then -1 else ((s.rank r).posts c : ℤ) - 1)
    (harrived : 1 < c.nLocalRanks → n + pc.ahead c = (s.rank r).arrived + pc₀.ahead c)
    (hmono : (s.rank r).arrived ≤ n)
    (habreast : ∀ b < c.nRanks, c.SameNode r b → n ≤ (s.rank b).arrived + pc.awaiting)
    (hpast : pc.Past → pc₀.Past)
    (hsent : ∀ round < c.nNodes, ∀ p, 1 ≤ p ∧ p < c.nLocalRanks → pc.Sent round p →
      pc₀.Sent round p) :
    Inv j (s.setRank r { s.rank r with stream := pc, arrived := n, postFlag := f }) := by
  subst hpc
  have hok := h.sync.ranks r hr
  refine ⟨h.sync.stream (hok.moveStream (hok.inside hidle) hvalid hseen hflag harrived)
    rfl rfl (h.sync.abreast.update hr hmono habreast), h.filled.of_landed ?_ ?_⟩
  · exact update_apply_eq s.rank (f := Rank.calls) rfl
  · intro r' _ b hb
    rcases hb.of_stream rfl rfl rfl with hb | ⟨_, _, hnew, hold⟩ |
      ⟨p, round, hp, _, hround, _, hnew, hold⟩
    · exact hb
    · exact absurd (hpast hnew) hold
    · exact absurd (hsent round hround p hp hnew) hold

theorem copyToSelf (he : (s.rank r).calls = e + 1) {x : Rank} (hok : RankOk j r x (s.flight r))
    (hcalls : x.calls = (s.rank r).calls) (hruns : x.runs = (s.rank r).runs)
    (hgpe : x.gpe = (s.rank r).gpe) (habreast : Abreast c (Function.update s.rank r x))
    (hsent : ∀ round < c.nNodes, ∀ p, 1 ≤ p ∧ p < c.nLocalRanks → ¬ x.stream.Sent round p) :
    ∃ s', s.copyToSelf j e r = .ok s' ∧ s'.rank = s.rank ∧ Inv j (s'.setRank r x) := by
  have hsync := h.sync.stream hok hgpe hruns habreast
  have hcalls' := update_apply_eq s.rank (f := Rank.calls) hcalls
  have hlanded : ∀ r' < c.nRanks, ∀ b, Landed j (Function.update s.rank r x) s.notified r' b →
      Landed j s.rank s.notified r' b ∨ r' = r ∧ b = r := by
    intro r' _ b hb
    rcases hb.of_stream hcalls hruns hgpe with hb | ⟨hr', hb, _, _⟩ |
      ⟨p, round, hp, _, hround, _, hnew, _⟩
    · exact Or.inl hb
    · exact Or.inr ⟨hr', hb⟩
    · exact absurd hnew (hsent round hround p hp)
  unfold State.copyToSelf
  by_cases hsame : j.sendPtr e r = .recvbuff (r * j.sendSize e)
  · rw [if_pos hsame]
    have hplace : j.inPlace e r := by
      unfold Calls.sendPtr at hsame
      split at hsame
      · assumption
      · cases hsame
    refine ⟨s, rfl, rfl, hsync, h.filled.of_landed hcalls' ?_⟩
    intro r' hr' b hb
    rcases hlanded r' hr' b hb with hb | ⟨rfl, rfl⟩
    · exact hb
    · exact .own rfl (Or.inl (by rw [he, Nat.add_sub_cancel]; exact hplace))
  · rw [if_neg hsame]
    refine ⟨_, if_pos ⟨sendPtr_inRange j e hr, block_fits j e hr⟩, rfl, hsync, ?_⟩
    exact h.filled.copy he hcalls' (h.read_sendPtr hr he) hlanded

end

theorem copyToPeer (h : Inv j s) (hreg : c.Regular) (hr : r < c.nRanks)
    (he : (s.rank r).calls = e + 1) (hpc : (s.rank r).stream = .copy round p)
    {x : Rank} (hok : RankOk j r x (s.flight r))
    (hcalls : x.calls = (s.rank r).calls) (hruns : x.runs = (s.rank r).runs)
    (hgpe : x.gpe = (s.rank r).gpe) (habreast : Abreast c (Function.update s.rank r x))
    (hsent : ∀ round' < c.nNodes, ∀ p', 1 ≤ p' ∧ p' < c.nLocalRanks → x.stream.Sent round' p' →
      (s.rank r).stream.Sent round' p' ∨ round' = round ∧ p' = p) :
    ∃ s', s.copyToPeer j e r round p = .ok s' ∧ s'.rank = s.rank ∧ Inv j (s'.setRank r x) := by
  have hnode : c.SameNode r (c.localPeer r p) := Config.localPeer_node.symm
  have hpeer : c.localPeer r p < c.nRanks := Config.lt_of_sameNode hnode.symm hr
  rcases h.read_bcast hreg hr he hpc with ⟨hoffset, hread⟩
  rcases bcast_inRange j e round hr with ⟨hsrc, hfits⟩
  rw [State.copyToPeer, if_pos (hreg.nvl r hr _ hpeer hnode)]
  refine ⟨_, if_pos ⟨hsrc, hfits⟩, rfl, h.sync.stream hok hgpe hruns habreast, ?_⟩
  have hcalls' := update_apply_eq s.rank (f := Rank.calls) hcalls
  have hpast : (s.rank r).stream.Past := by
    rw [hpc]
    trivial
  have hhere : (s.rank (c.localPeer r p)).calls = e + 1 :=
    (h.sync.calls_of_copy hr hpeer hnode hpc).trans he
  simp only [hoffset]
  apply h.filled.copy hhere hcalls' hread
  intro r' _ b hb
  rcases hb.of_stream hcalls hruns hgpe with hb | ⟨_, _, _, hnot⟩ |
    ⟨p', round', hp', hr', hround, hblock, hnew, hold⟩
  · exact Or.inl hb
  · exact absurd hpast hnot
  · rcases hsent round' hround p' hp' hnew with hin | ⟨rfl, rfl⟩
    · exact absurd hin hold
    · exact Or.inr ⟨hr', hblock⟩

section

variable (h : Inv j s) (hr : r < c.nRanks)
include h hr

theorem step_hold (hpc : (s.rank r).stream = .hold) :
    ∃ s', s.streamStep j r = .ok s' ∧ Inv j s' := by
  rcases h.stream_at hr hpc nofun with ⟨_, hvalid, _, _, habreast⟩
  simp only [State.streamStep, hpc]
  by_cases hdone : (s.rank r).runs = (s.rank r).calls ∧ (s.rank r).gpe = .idle
  · rw [if_pos hdone]
    have hposts : (s.rank r).posts c = c.nNodes - 1 := by
      rw [RankOk.posts_of_eq hdone.1, hdone.2]
      rfl
    refine ⟨_, rfl, h.move hr hpc nofun .copyToSelf (s.rank r).arrived (s.rank r).postFlag trivial
      ?_ ?_ ?_ le_rfl habreast False.elim fun _ _ _ _ => False.elim⟩
    · rw [hposts, StreamPc.seen, if_pos hvalid.2]
    · exact fun hlt => absurd hvalid.2 hlt.ne'
    · exact fun hlt => absurd hvalid.2 hlt.ne'
  · rw [if_neg hdone]
    exact ⟨s, rfl, h⟩

theorem step_barrier {round : ℕ}
    (hpc : (s.rank r).stream = .barrier round) : ∃ s', s.streamStep j r = .ok s' ∧ Inv j s' := by
  rcases h.stream_at hr hpc nofun with ⟨_, hvalid, hseen, hflag, habreast⟩
  simp only [State.streamStep, hpc]
  refine ⟨_, rfl, h.move hr hpc nofun (.await round) ((s.rank r).arrived + 1) (s.rank r).postFlag
    hvalid hseen hflag ?_ (Nat.le_succ _) ?_ id fun _ _ _ _ => id⟩
  · intro _
    have hle := hvalid.2
    simp only [StreamPc.ahead]
    omega
  · exact fun b hb hnode => Nat.succ_le_succ (habreast b hb hnode)

theorem step_await {round : ℕ}
    (hpc : (s.rank r).stream = .await round) : ∃ s', s.streamStep j r = .ok s' ∧ Inv j s' := by
  rcases h.stream_at hr hpc nofun with ⟨_, hvalid, hseen, hflag, _⟩
  have hle := hvalid.2
  simp only [StreamPc.seen] at hseen
  simp only [State.streamStep, hpc]
  by_cases hall : ∀ p < c.nLocalRanks,
      (s.rank r).arrived ≤ (s.rank (c.localRankToRank r p)).arrived
  · rw [if_pos hall]
    have habreast : ∀ b < c.nRanks, c.SameNode r b → (s.rank r).arrived ≤ (s.rank b).arrived := by
      intro b _ hnode
      rcases Config.SameNode.exists_localRankToRank hnode.symm with ⟨p, hp, rfl⟩
      exact hall p hp
    by_cases hlast : round = c.nNodes
    · rw [if_pos hlast]
      subst hlast
      refine ⟨_, rfl, h.move hr hpc (by simp) .idle (s.rank r).arrived (s.rank r).postFlag trivial ?_ ?_
        ?_ le_rfl habreast id fun _ hround _ _ _ => hround⟩
      · simp only [StreamPc.seen]
        omega
      · intro hlt
        have hreset : StreamPc.reset c (.await c.nNodes) = true := decide_eq_true rfl
        rw [hflag hlt, hreset]
        rfl
      · intro _
        simp only [StreamPc.ahead]
        omega
    · rw [if_neg hlast]
      refine ⟨_, rfl, h.move hr hpc (by simp) (.copy round 1) (s.rank r).arrived (s.rank r).postFlag
        ⟨hvalid.1, by omega, le_rfl, hvalid.1⟩ ?_ ?_ (fun _ => rfl) le_rfl habreast id ?_⟩
      · simp only [StreamPc.seen]
        omega
      · intro hlt
        have hreset : StreamPc.reset c (.await round) = false := decide_eq_false hlast
        rw [hflag hlt, hreset]
        rfl
      · simp only [StreamPc.Sent]
        omega
  · rw [if_neg hall]
    exact ⟨s, rfl, h⟩

end

variable {step : ℕ}

section

variable (h : Inv j s)
include h

theorem step_waitPost (hr : r < c.nRanks)
    (hpc : (s.rank r).stream = .waitPost step) : ∃ s', s.streamStep j r = .ok s' ∧ Inv j s' := by
  rcases h.stream_at hr hpc nofun with ⟨_, hvalid, _, hflag, habreast⟩
  have hlt := hvalid.2
  have hflag' := hflag hvalid.1
  simp only [StreamPc.reset, Bool.false_eq_true, if_false] at hflag'
  simp only [State.streamStep, hpc]
  by_cases hposted : (step : ℤ) ≤ (s.rank r).postFlag
  · rw [if_pos hposted]
    refine ⟨_, rfl, h.move hr hpc nofun (.barrier (step + 1)) (s.rank r).arrived (s.rank r).postFlag
      ⟨hvalid.1, hlt.le⟩ ?_ ?_ ?_ le_rfl habreast id ?_⟩
    · simp only [StreamPc.seen]
      omega
    · intro _
      have hreset : StreamPc.reset c (.barrier (step + 1)) = false := decide_eq_false hlt.ne
      rw [hreset]
      exact hflag'
    · intro _
      simp only [StreamPc.ahead]
      omega
    · simp only [StreamPc.Sent]
      omega
  · rw [if_neg hposted]
    exact ⟨s, rfl, h⟩

theorem step_pipeEnd (hr : r < c.nRanks) (hpc : (s.rank r).stream = .pipeEnd) :
    ∃ s', s.streamStep j r = .ok s' ∧ Inv j s' := by
  rcases h.stream_at hr hpc nofun with ⟨_, hvalid, hseen, _, habreast⟩
  simp only [State.streamStep, hpc]
  refine ⟨_, rfl, h.move hr hpc nofun (.barrier c.nNodes) (s.rank r).arrived (-1) ⟨hvalid, le_rfl⟩
    ?_ ?_ ?_ le_rfl habreast id fun _ _ _ _ _ => trivial⟩
  · simp only [StreamPc.seen] at hseen ⊢
    omega
  · intro _
    have hreset : StreamPc.reset c (.barrier c.nNodes) = true := decide_eq_true rfl
    rw [hreset]
    rfl
  · intro _
    simp only [StreamPc.ahead]
    omega

theorem step_copyToSelf (hr : r < c.nRanks)
    (hpc : (s.rank r).stream = .copyToSelf) : ∃ s', s.streamStep j r = .ok s' ∧ Inv j s' := by
  have hok := h.sync.ranks r hr
  have hN := c.nNodes_pos
  rcases h.stream_at hr hpc nofun with ⟨hcalls, _, hseen, hflag, _⟩
  obtain ⟨e, he⟩ : ∃ e, (s.rank r).calls = e + 1 := ⟨(s.rank r).calls - 1, by omega⟩
  have hmove : RankOk j r { s.rank r with
      stream := if 1 < c.nLocalRanks then .barrier 0 else .idle } (s.flight r) := by
    apply hok.moveStream hcalls
    · split
      · exact ⟨by assumption, Nat.zero_le _⟩
      · trivial
    · split
      · simp only [StreamPc.seen, Nat.zero_min]
        omega
      · have hone : c.nLocalRanks = 1 := by
          have hL := c.nLocalRanks_pos
          omega
        rw [StreamPc.seen, if_pos hone] at hseen
        exact hseen
    · intro hlt
      have hreset : StreamPc.reset c (.barrier 0) = false := decide_eq_false (by omega)
      rw [if_pos hlt, hflag hlt, hreset]
      rfl
    · intro hlt
      rw [if_pos hlt, hpc]
      rfl
  rcases h.copyToSelf hr he hmove rfl rfl rfl
    (h.sync.abreast.move hr rfl (by rw [hpc]; exact Nat.zero_le _)) (by
      intro round _ p hp
      rw [if_pos (by omega)]
      exact Nat.not_lt_zero round) with ⟨s', hcopy, hrank, hinv⟩
  refine ⟨_, ?_, hinv⟩
  simp only [State.streamStep, hpc, he, Nat.add_sub_cancel, hcopy, bind, Except.bind,
    State.setStream, hrank]

theorem step_copy (hreg : c.Regular) (hr : r < c.nRanks) {round p : ℕ}
    (hpc : (s.rank r).stream = .copy round p) : ∃ s', s.streamStep j r = .ok s' ∧ Inv j s' := by
  have hok := h.sync.ranks r hr
  rcases h.stream_at hr hpc nofun with ⟨hcalls, ⟨hL, hround, hpos, hp⟩, hseen, hflag, _⟩
  obtain ⟨e, he⟩ : ∃ e, (s.rank r).calls = e + 1 := ⟨(s.rank r).calls - 1, by omega⟩
  generalize hnext : (if p + 1 < c.nLocalRanks then .copy round (p + 1)
    else if round + 1 < c.nNodes then .waitPost round else .pipeEnd : StreamPc) = pc
  have hcases : pc = .copy round (p + 1) ∧ p + 1 < c.nLocalRanks ∨
      pc = .waitPost round ∧ ¬ p + 1 < c.nLocalRanks ∧ round + 1 < c.nNodes ∨
      pc = .pipeEnd ∧ ¬ p + 1 < c.nLocalRanks ∧ round + 1 = c.nNodes := by
    rw [← hnext]
    split
    · exact Or.inl ⟨rfl, by assumption⟩
    · split
      · exact Or.inr (Or.inl ⟨rfl, by assumption, by assumption⟩)
      · exact Or.inr (Or.inr ⟨rfl, by assumption, by omega⟩)
  have hmove : RankOk j r { s.rank r with stream := pc } (s.flight r) := by
    apply hok.moveStream hcalls
    · rcases hcases with ⟨rfl, hlt⟩ | ⟨rfl, _, hlt⟩ | ⟨rfl, _, _⟩
      · exact ⟨hL, hround, by omega, hlt⟩
      · exact ⟨hL, hlt⟩
      · exact hL
    · rcases hcases with ⟨rfl, _⟩ | ⟨rfl, _, _⟩ | ⟨rfl, _, hlast⟩
      · exact hseen
      · exact hseen
      · simp only [StreamPc.seen] at hseen ⊢
        omega
    · rcases hcases with ⟨rfl, _⟩ | ⟨rfl, _, _⟩ | ⟨rfl, _, _⟩ <;> exact hflag
    · rw [hpc]
      rcases hcases with ⟨rfl, _⟩ | ⟨rfl, _, _⟩ | ⟨rfl, _, hlast⟩
      · exact fun _ => rfl
      · exact fun _ => rfl
      · intro _
        simp only [StreamPc.ahead]
        omega
  rcases h.copyToPeer hreg hr he hpc hmove rfl rfl rfl
    (h.sync.abreast.move hr rfl (by rw [hpc]; exact Nat.zero_le _)) (by
      intro round' hround' p' hp' hsent
      rw [hpc]
      rcases hcases with ⟨rfl, _⟩ | ⟨rfl, _, _⟩ | ⟨rfl, _, _⟩ <;>
        simp only [StreamPc.Sent] at hsent ⊢ <;> omega) with ⟨s', hcopy, hrank, hinv⟩
  refine ⟨_, ?_, hinv⟩
  simp only [State.streamStep, hpc, he, Nat.add_sub_cancel, hcopy, bind, Except.bind,
    State.setStream, hrank, hnext]

theorem streamStep (hreg : c.Regular) (hr : r < c.nRanks)
    (hclear : (s.rank r).stream = .idle → s.flight r = []) :
    ∃ s', s.streamStep j r = .ok s' ∧ Inv j s' := by
  cases hpc : (s.rank r).stream with
  | idle =>
    refine ⟨s.start j r, ?_, h.start hr hpc (hclear hpc)⟩
    simp only [State.streamStep, hpc]
  | hold => exact h.step_hold hr hpc
  | copyToSelf => exact h.step_copyToSelf hr hpc
  | barrier round => exact h.step_barrier hr hpc
  | await round => exact h.step_await hr hpc
  | copy round p => exact h.step_copy hreg hr hpc
  | waitPost step => exact h.step_waitPost hr hpc
  | pipeEnd => exact h.step_pipeEnd hr hpc

/-! ### The steps of a thread -/

section

variable (hr : r < c.nRanks)
include hr

/-- What holds of a thread at `pc`, away from the ends of a run. -/
theorem gpe_at {pc : GpePc} (hpc : (s.rank r).gpe = pc)
    (hidle : pc ≠ .idle) (hwait : pc ≠ .waitPuts) :
    pc.Valid c ∧
      (1 < c.nLocalRanks → (s.rank r).postFlag =
        if (s.rank r).stream.reset c then -1 else (pc.posted c : ℤ) - 1) ∧
      ∃ m ≤ pc.issued c,
        s.flight r = (List.range' m (pc.issued c - m)).map (j.put ((s.rank r).runs - 1) r) := by
  have hok := h.sync.ranks r hr
  subst hpc
  have hflag := hok.flag
  rw [RankOk.posts_of_eq (hok.runs_of_gpe hidle hwait)] at hflag
  exact ⟨hok.gpe, hflag, hok.flying⟩

/-- A step within a run, from `pc₀` to `pc`. -/
theorem moveGpe {pc₀ : GpePc} (hpc : (s.rank r).gpe = pc₀)
    (hidle : pc₀ ≠ .idle) (hwait : pc₀ ≠ .waitPuts) (pc : GpePc) (f : ℤ) {ready' notified' : ℕ → ℕ}
    {flight' : ℕ → List Put} (hvalid : pc.Valid c) (hposted : pc₀.posted c ≤ pc.posted c)
    (hflag : 1 < c.nLocalRanks →
      f = if (s.rank r).stream.reset c then -1 else (pc.posted c : ℤ) - 1)
    (hflying : ∃ m ≤ pc.issued c,
      flight' r = (List.range' m (pc.issued c - m)).map (j.put ((s.rank r).runs - 1) r))
    (hflight : ∀ r', r' ≠ r → flight' r' = s.flight r')
    (hlinks : Links c (Function.update s.rank r { s.rank r with gpe := pc, postFlag := f }) ready'
      notified' flight')
    (hrail : pc.consumed c + notified' r = pc₀.consumed c + s.notified r)
    (hnotified : ∀ r', r' ≠ r → notified' r' = s.notified r') :
    Inv j { s with
      rank := Function.update s.rank r { s.rank r with gpe := pc, postFlag := f }
      ready := ready'
      notified := notified'
      flight := flight' } := by
  subst hpc
  have hok := h.sync.ranks r hr
  refine ⟨h.sync.gpe hr (hok.moveGpe (hok.runs_of_gpe hidle hwait) (hok.runs_pos hidle) hvalid
    hposted hflag hflying) rfl rfl hflight hlinks, h.filled.of_gpe rfl rfl ?_ hnotified⟩
  simp only [Rank.rail, hrail]
  exact le_rfl

theorem gpe_idle (hpc : (s.rank r).gpe = .idle)
    (hN : 1 < c.nNodes) (hlt : (s.rank r).runs < (s.rank r).calls) :
    Inv j (s.setRank r { s.rank r with gpe := .isendCtrl, runs := (s.rank r).runs + 1 }) where
  sync := by
    refine h.sync.gpe hr ((h.sync.ranks r hr).startGpe hN hlt) rfl rfl (fun _ _ => rfl) ?_
    apply h.sync.links.move
    · simp only [Rank.sent, hpc, GpePc.issued, Nat.succ_mul, Nat.add_zero]
    · simp only [Rank.taken, hpc, GpePc.consumed, Nat.succ_mul, Nat.add_zero]
    · rw [hpc]
      rfl
    · rw [hpc]
      rfl
  filled := by
    refine h.filled.of_gpe rfl rfl ?_ fun _ _ => rfl
    change (if (s.rank r).runs + 1 = (s.rank r).calls then 0 + s.notified r else 0) ≤ _
    rw [h.sync.notified_eq_zero hr hpc, ite_self]
    exact Nat.zero_le _

theorem gpe_waitPuts (hpc : (s.rank r).gpe = .waitPuts)
    (hflight : s.flight r = []) : Inv j (s.setGpe r .idle) where
  sync := by
    have hok := h.sync.ranks r hr
    rw [hflight] at hok
    refine h.sync.gpe hr ?_ rfl rfl (fun _ _ => rfl) ?_
    · change RankOk j r _ (s.flight r)
      rw [hflight]
      exact hok.finishGpe hpc
    · apply h.sync.links.move
      · simp only [Rank.sent, hpc, GpePc.issued]
      · simp only [Rank.taken, hpc, GpePc.consumed]
      · rw [hpc]
        rfl
      · rw [hpc]
        rfl
  filled := by
    refine h.filled.of_gpe rfl rfl ?_ fun _ _ => rfl
    simp only [Rank.rail, hpc, GpePc.consumed]
    exact le_rfl

theorem gpe_isendCtrl (hpc : (s.rank r).gpe = .isendCtrl) : Inv j (s.gpeStep j r) := by
  rcases h.gpe_at hr hpc nofun nofun with ⟨_, hflag, hflying⟩
  simp only [State.gpeStep, hpc]
  exact h.moveGpe hr hpc nofun nofun .irecvCtrl (s.rank r).postFlag trivial le_rfl hflag hflying
    (fun _ _ => rfl) (h.sync.links.isendCtrl hr hpc) rfl fun _ _ => rfl

end

end

theorem update_pred {n : ℕ → ℕ} (hpos : 0 < n r) (r' : ℕ) :
    Function.update n r (n r - 1) r' + (if r' = r then 1 else 0) = n r' := by
  by_cases hrr : r' = r
  · rw [hrr, Function.update_self, if_pos rfl, Nat.sub_add_cancel hpos]
  · rw [Function.update_of_ne hrr, if_neg hrr, Nat.add_zero]

section

variable (h : Inv j s) (hr : r < c.nRanks)
include h hr

theorem gpe_irecvCtrl (hpc : (s.rank r).gpe = .irecvCtrl) : Inv j (s.gpeStep j r) := by
  rcases h.gpe_at hr hpc nofun nofun with ⟨_, hflag, hflying⟩
  have hN : 0 + 1 < c.nNodes := by
    have hok := h.sync.ranks r hr
    have hruns := hok.runs_pos (by rw [hpc]; nofun)
    have hpos := c.nNodes_pos
    by_contra hle
    have hzero := hok.single (by omega)
    omega
  simp only [State.gpeStep, hpc]
  by_cases hready : 0 < s.ready r
  · rw [if_pos hready]
    exact h.moveGpe hr hpc nofun nofun (.iput 0) (s.rank r).postFlag hN le_rfl hflag hflying
      (fun _ _ => rfl) (h.sync.links.gpe (i := 0) (k := 0) (t := 1) hpc rfl rfl rfl rfl
        (update_pred hready) (fun _ => by rw [ite_self]; rfl) fun _ => by rw [ite_self]; rfl) rfl fun _ _ => rfl
  · rw [if_neg hready]
    exact h

theorem gpe_iput
    (hpc : (s.rank r).gpe = .iput step) : Inv j (s.gpeStep j r) := by
  rcases h.gpe_at hr hpc nofun nofun with ⟨hvalid, hflag, m, hm, hflight⟩
  simp only [GpePc.issued] at hm hflight
  simp only [State.gpeStep, hpc]
  apply h.moveGpe hr hpc nofun nofun (.waitNotify step) (s.rank r).postFlag hvalid le_rfl hflag _ _
    _ rfl fun _ _ => rfl
  · refine ⟨m, by simp only [GpePc.issued]; omega, ?_⟩
    have hlast : step + 1 - m = step - m + 1 := by omega
    simp only [GpePc.issued, Function.update_self]
    rw [hflight, hlast, List.range'_concat, List.map_append, Nat.one_mul,
      Nat.add_sub_cancel' hm]
    rfl
  · exact fun r' hne => Function.update_of_ne hne _ _
  · apply h.sync.links.gpe (i := 1) (k := 0) (t := 0) hpc (by rfl) (by rfl) (by rfl) (by rfl)
    · simp [State.setGpe, State.setRank]
    · simp
    · intro r'
      by_cases hrr : r' = r
      · rw [hrr, Function.update_self, if_pos rfl, List.length_append, List.length_singleton]
      · rw [Function.update_of_ne hrr, if_neg hrr, Nat.add_zero]

theorem gpe_waitNotify
    (hpc : (s.rank r).gpe = .waitNotify step) : Inv j (s.gpeStep j r) := by
  rcases h.gpe_at hr hpc nofun nofun with ⟨hvalid, hflag, hflying⟩
  simp only [State.gpeStep, hpc]
  by_cases hnotified : 0 < s.notified r
  · rw [if_pos hnotified]
    apply h.moveGpe hr hpc nofun nofun (.post step) (s.rank r).postFlag hvalid le_rfl hflag hflying
      (fun _ _ => rfl) (h.sync.links.gpe (i := 0) (k := 1) (t := 0) hpc rfl rfl rfl rfl
        (fun _ => by rw [ite_self]; rfl) (update_pred hnotified) fun _ => by rw [ite_self]; rfl) _
      fun r' hne => Function.update_of_ne hne _ _
    rw [Function.update_self]
    simp only [GpePc.consumed]
    omega
  · rw [if_neg hnotified]
    exact h

theorem gpe_post
    (hpc : (s.rank r).gpe = .post step) : Inv j (s.gpeStep j r) := by
  have hok := h.sync.ranks r hr
  have hidle : (s.rank r).gpe ≠ .idle := by rw [hpc]; nofun
  have hwait : (s.rank r).gpe ≠ .waitPuts := by rw [hpc]; nofun
  rcases h.gpe_at hr hpc nofun nofun with ⟨hvalid, _, hflying⟩
  have hlt : step + 1 < c.nNodes := hvalid
  have hreset := hok.not_reset (hok.runs_of_gpe hidle hwait) (hok.runs_pos hidle)
    (by rw [hpc]; simp only [GpePc.posted]; omega)
  generalize hnext : (if step + 1 < c.nNodes - 1 then .iput (step + 1) else .waitPuts : GpePc) = pc
  have hpc' : pc.Valid c ∧ pc.issued c = step + 1 ∧ pc.consumed c = step + 1 ∧
      pc.posted c = step + 1 ∧ pc.untaken = 0 ∧ pc.unsent = 0 := by
    rw [← hnext]
    split
    · rename_i hmore
      exact ⟨Nat.lt_sub_iff_add_lt.mp hmore, rfl, rfl, rfl, rfl, rfl⟩
    · have hlast : c.nNodes - 1 = step + 1 := by omega
      exact ⟨trivial, hlast, hlast, hlast, rfl, rfl⟩
  rcases hpc' with ⟨hvalid', hissued, hconsumed, hposted, huntaken, hunsent⟩
  simp only [State.gpeStep, hpc, hnext]
  apply h.moveGpe hr hpc nofun nofun pc step hvalid' _ _ _ (fun _ _ => rfl) _ _ fun _ _ => rfl
  · rw [hposted]
    exact Nat.le_succ step
  · intro _
    rw [hreset, hposted]
    simp
  · rw [hissued]
    exact hflying
  · exact h.sync.links.gpe (i := 0) (k := 0) (t := 0) hpc hissued hconsumed huntaken.symm
      hunsent.symm (by simp) (by simp) (by simp)
  · rw [hconsumed]
    rfl

theorem gpeStep : Inv j (s.gpeStep j r) := by
  cases hpc : (s.rank r).gpe with
  | idle =>
    simp only [State.gpeStep, hpc]
    split
    · rename_i hstart
      exact h.gpe_idle hr hpc hstart.1 hstart.2
    · exact h
  | isendCtrl => exact h.gpe_isendCtrl hr hpc
  | irecvCtrl => exact h.gpe_irecvCtrl hr hpc
  | iput step => exact h.gpe_iput hr hpc
  | waitNotify step => exact h.gpe_waitNotify hr hpc
  | post step => exact h.gpe_post hr hpc
  | waitPuts =>
    simp only [State.gpeStep, hpc]
    split
    · rename_i hflight
      exact h.gpe_waitPuts hr hpc hflight
    · exact h

/-! ### Puts in flight -/

theorem first_put {q : Put} {rest : List Put} (hflight : s.flight r = q :: rest) :
    ∃ e m, (s.rank r).calls = e + 1 ∧ (s.rank r).runs = e + 1 ∧
      (s.rank (c.downPeer r)).calls = e + 1 ∧ (s.rank (c.downPeer r)).runs = e + 1 ∧
      m = (s.rank (c.downPeer r)).gpe.consumed c + s.notified (c.downPeer r) ∧
      m ≤ (s.rank r).gpe.consumed c ∧ m + 1 < c.nNodes ∧ q = j.put e r m := by
  have hok := h.sync.ranks r hr
  have hdown := h.sync.ranks _ (Config.downPeer_lt (c := c) r)
  have hlen := hok.length_le
  have hissued := hok.gpe.issued_le
  have hconsumed := (s.rank r).gpe.issued_le (c := c)
  rcases h.sync.inFlight hr hflight with ⟨hruns, hruns', heq, hm⟩
  rw [hflight] at hok hlen
  rw [List.length_cons] at hlen
  have hpos : 0 < (s.rank r).runs := by
    by_contra hzero
    have hidle := hdown.unstarted (by omega)
    rw [hidle] at hm
    simp only [GpePc.consumed] at hm
    omega
  refine ⟨(s.rank r).runs - 1,
    (s.rank (c.downPeer r)).gpe.consumed c + s.notified (c.downPeer r), by omega, by omega,
    by omega, by omega, rfl, by omega, by omega, ?_⟩
  rw [← hm]
  exact hok.arrive.2

end

theorem deliver (h : Inv j s) (hreg : c.Regular) (hr : r < c.nRanks) :
    ∃ s', s.deliver c r = .ok s' ∧ Inv j s' := by
  cases hflight : s.flight r with
  | nil =>
    refine ⟨s, ?_, h⟩
    simp only [State.deliver, hflight]
  | cons q rest =>
    rcases h.first_put hr hflight with ⟨e, m, hcalls, hruns, hcalls', hruns', hm, hle, hN, rfl⟩
    rcases put_inRange (k := m) j e hr with ⟨hsrc, hfits⟩
    have hmasks : c.Masks := hreg.masks.resolve_left (by omega)
    have hrail : (s.rank r).rail c (s.notified r) =
        (s.rank r).gpe.consumed c + s.notified r := if_pos (hruns.trans hcalls.symm)
    have hread := h.read_put hreg hr hcalls (k := m) (by omega) hN
    have hoffset : (j.put e r m).offset = c.origin r m * j.sendSize e := by
      simp only [Calls.put]
      rw [hmasks.chunk r (by omega)]
    have hcopy : s.copy c r (j.put e r m).src (c.downPeer r) (j.put e r m).offset
        (j.put e r m).size = .ok { s with
          recvbuff := Function.update s.recvbuff (c.downPeer r) (blit (s.recvbuff (c.downPeer r))
            (j.put e r m).offset (j.put e r m).size (s.read r (j.put e r m).src)) } :=
      if_pos ⟨hsrc, hfits⟩
    refine ⟨_, by simp only [State.deliver, hflight, hcopy, bind, Except.bind]; rfl, ?_⟩
    refine ⟨h.sync.deliver hr hflight, ?_⟩
    simp only [hoffset]
    apply h.filled.copy hcalls' (fun _ => rfl) hread
    intro r' _ b hb
    rcases hb.of_deliver (hruns'.trans hcalls'.symm) with hb | ⟨hr', hb⟩
    · exact Or.inl hb
    · rw [← hm, Config.origin_downPeer hr hN.le] at hb
      exact Or.inr ⟨hr', hb⟩

end Inv
end TorchComms.Algos.AllGatherP
