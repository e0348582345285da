import TorchComms.Algos.RingCounters
import TorchComms.Foundation.Loop

/-! # The partial sums on the ring

What comes from the left is the sum over the ranks behind, and the block that the sum is for moves
one place back with every step, so that the last sum of a round is for the rank itself.
-/
namespace TorchComms.Algos.ReduceScatterRing

open Foundation

variable {c : Config} {p : Plan}

namespace Config

/-- The first element of the r-th chunk of a block. -/
def chunk (c : Config) (p : Plan) (block r : ℕ) : ℕ := block * c.recvcount + r * p.stepCount

/-- The k-th put of a rank. -/
def putAt (c : Config) (p : Plan) (rank k : ℕ) : Put where
  src :=
    if k % (c.nRanks - 1) = 0 then
      .user (c.chunk p (back c.nRanks rank 1) (k / (c.nRanks - 1)))
    else .redBuf
  count := c.roundCount p (k / (c.nRanks - 1))

/-- The reduction of a rank at the i-th step of the r-th round. -/
def reduceAt (c : Config) (p : Plan) (rank r i : ℕ) : Reduce where
  count := c.roundCount p r
  isFinal := i == c.nRanks - 2
  dst := if i = c.nRanks - 2 then .user (c.recvbuff rank + r * p.stepCount) else .redBuf
  src := c.chunk p (back c.nRanks rank (i + 2)) r

end Config

section Sums

variable {α : Type} [AddCommMonoid α] (c p) (user : ℕ → ℕ → α) (rank r i e : ℕ)

/-- What a rank receives at a step: the sum over the `i + 1` ranks behind it. -/
def received : α :=
  ∑ d ∈ Finset.range (i + 1),
    user (back c.nRanks rank (d + 1)) (c.chunk p (back c.nRanks rank (i + 2)) r + e)

/-- The sum with the rank's own elements. -/
def reduced : α :=
  ∑ d ∈ Finset.range (i + 2),
    user (back c.nRanks rank d) (c.chunk p (back c.nRanks rank (i + 2)) r + e)

variable {c p user rank r i e}

section

variable (hrank : rank < c.nRanks)
include hrank

theorem received_add :
    received c p user rank r i e +
      user rank (c.chunk p (back c.nRanks rank (i + 2)) r + e) =
    reduced c p user rank r i e := by
  unfold reduced received
  rw [Finset.sum_range_succ' _ (i + 1), back_zero hrank]

theorem received_right_zero :
    received c p user (c.right rank) r 0 e =
      user rank (c.chunk p (back c.nRanks rank 1) r + e) := by
  have hn := c.nRanks_ge
  unfold received Config.right
  rw [Finset.sum_range_one, back_next hrank (by omega), back_zero hrank, back_next hrank (by omega)]

theorem received_right_succ (hi : i + 3 ≤ c.nRanks) :
    received c p user (c.right rank) r (i + 1) e = reduced c p user rank r i e := by
  unfold received reduced Config.right
  rw [back_next hrank (by omega)]
  apply Finset.sum_congr rfl
  intro d hd
  rw [Finset.mem_range] at hd
  rw [back_next hrank (by omega)]

theorem reduced_last :
    reduced c p user rank r (c.nRanks - 2) e =
      ∑ q ∈ Finset.range c.nRanks, user q (c.chunk p rank r + e) := by
  have hn := c.nRanks_ge
  unfold reduced
  rw [Nat.sub_add_cancel hn]
  have hself : back c.nRanks rank c.nRanks = rank := by
    rw [back_eq hrank (Nat.le_refl _)]
    split <;> omega
  rw [hself]
  exact sum_back (fun q => user q (c.chunk p rank r + e)) hrank

end

end Sums

/-! ### The invariant -/

variable {α : Type} [AddCommMonoid α] {finish : α → α} {user scratch : ℕ → ℕ → α}

/-- What the e-th element of the own block is in the end. -/
def outcome (c : Config) (finish : α → α) (user : ℕ → ℕ → α) (rank e : ℕ) : α :=
  finish (∑ q ∈ Finset.range c.nRanks, user q (rank * c.recvcount + e))

/-- The receive buffer of a rank has the outcome for the rounds that are done, and nothing else of
the user's memory has changed. -/
structure UserInv (c : Config) (p : Plan) (finish : α → α) (user : ℕ → ℕ → α) (rank : ℕ)
    (x : Rank α) : Prop where
  done : ∀ e < c.recvcount, e / p.stepCount < x.kernelSteps / (c.nRanks - 1) →
    x.user (c.recvbuff rank + e) = outcome c finish user rank e
  pending : ∀ e < c.recvcount, x.kernelSteps / (c.nRanks - 1) ≤ e / p.stepCount →
    x.user (c.recvbuff rank + e) = user rank (c.recvbuff rank + e)
  outside : ∀ a, a < c.recvbuff rank ∨ c.recvbuff rank + c.recvcount ≤ a →
    x.user a = user rank a

/-- What a rank has put and posted, and what its memory holds. -/
structure Contents (c : Config) (p : Plan) (finish : α → α) (user : ℕ → ℕ → α) (rank : ℕ)
    (x : Rank α) : Prop where
  puts : ∀ k put, x.issued[k]? = some put → put = c.putAt p rank k
  kElem : x.phase = .reduce → x.kElem = c.reduceAt p rank x.r x.i
  redBuf : ∀ j, j + 1 < c.nRanks - 1 → x.kernelSteps = x.r * (c.nRanks - 1) + j + 1 →
    ∀ e < c.roundCount p x.r, x.redBuf e = reduced c p user rank x.r j e
  memory : UserInv c p finish user rank x

structure RankInv (c : Config) (p : Plan) (finish : α → α) (user : ℕ → ℕ → α) (rank : ℕ)
    (x : Rank α) : Prop extends Counters c p rank x, Contents c p finish user rank x

/-- What holds between a rank and its right neighbour: a chunk that has not been reduced is the one
for the neighbour's step. -/
structure LinkInv (c : Config) (p : Plan) (user : ℕ → ℕ → α) (rank : ℕ) (x y : Rank α) :
    Prop where
  rts : x.rtsTaken ≤ y.rtsSent
  arrived : y.consumed ≤ x.delivered
  fresh : y.kernelSteps < x.delivered →
    ∀ e < c.roundCount p y.r, y.recvBuf e = received c p user (c.right rank) y.r y.i e

structure Inv (c : Config) (p : Plan) (finish : α → α) (user : ℕ → ℕ → α) (s : Ring α) :
    Prop where
  rank : ∀ r < c.nRanks, RankInv c p finish user r (s r)
  link : ∀ r < c.nRanks, LinkInv c p user r (s r) (s (c.right r))

section Facts

variable {rank : ℕ} {x y : Rank α}

theorem LinkInv.ahead (h : LinkInv c p user rank x y) (hx : Counters c p rank x)
    (hy : Counters c p (c.right rank) y) : x.issued.length ≤ y.kernelSteps + 1 := by
  have hrts := h.rts
  have hsent := hy.rtsSent_le
  have hle := hy.atLeast
  have hissued := hx.issued
  have htaken := hx.rtsTaken
  omega

/-- A rank whose put is on the way is at the same step as its right neighbour. -/
theorem LinkInv.same (h : LinkInv c p user rank x y) (hx : Counters c p rank x)
    (hy : Counters c p (c.right rank) y) (hway : x.delivered < x.issued.length) :
    x.delivered = x.number c ∧ x.kernelSteps = x.number c ∧ y.kernelSteps = x.number c ∧
      y.number c = x.number c := by
  have hput : x.phase.put ≤ 1 := by cases x.phase <;> decide
  have hnotice : y.phase.post ≤ y.phase.notice := by cases y.phase <;> decide
  have hbusy : x.phase = .waitNotify ∨ x.phase = .waitPut := by
    by_contra hnone
    rw [not_or] at hnone
    have := hx.idle hnone.1 hnone.2
    omega
  have hpost : x.phase.post = 0 := by rcases hbusy with hp | hp <;> rw [hp] <;> rfl
  have hone : x.phase.put = 1 := by rcases hbusy with hp | hp <;> rw [hp] <;> rfl
  have hahead := h.ahead hx hy
  have hrts := h.rts
  have harrived := h.arrived
  have hsent := hy.rtsSent_le
  have hissued := hx.issued
  have htaken := hx.rtsTaken
  have hposted := hx.posted
  have hxle := hx.atLeast
  have hxmost := hx.atMost
  have hyle := hy.atLeast
  have hymost := hy.atMost
  have hyposted := hy.posted
  have hyconsumed := hy.consumed
  omega

/-! ### The memory of a rank -/

theorem chunk_div (hgood : Good c p) {r e : ℕ} (he : e < c.roundCount p r) :
    r * p.stepCount + e < c.recvcount ∧ (r * p.stepCount + e) / p.stepCount = r := by
  have hpos := hgood.step_pos
  unfold Config.roundCount at he
  constructor
  · omega
  · rw [Nat.mul_comm, Nat.mul_add_div hpos, Nat.div_eq_of_lt (by omega), Nat.add_zero]

theorem le_mul_of_lt {b b' : ℕ} (h : b < b') : b * c.recvcount + c.recvcount ≤ b' * c.recvcount := by
  rw [← Nat.succ_mul]
  exact Nat.mul_le_mul_right _ h

section

variable (h : UserInv c p finish user rank x)
include h

/-- The blocks of the send buffer are as they were, but for the own block where a reduction in place
has been. -/
theorem UserInv.block_eq {b e : ℕ} (hb : b < c.nRanks)
    (he : e < c.recvcount) (hown : b = rank → x.kernelSteps / (c.nRanks - 1) ≤ e / p.stepCount) :
    x.user (b * c.recvcount + e) = user rank (b * c.recvcount + e) := by
  cases hplace : c.inplace rank with
  | true =>
    have hbuff : c.recvbuff rank = rank * c.recvcount := if_pos hplace
    rcases Nat.lt_trichotomy b rank with hlt | rfl | hgt
    · have hle := le_mul_of_lt (c := c) hlt
      exact h.outside _ (.inl (by omega))
    · rw [← hbuff]
      exact h.pending e he (hown rfl)
    · have hle := le_mul_of_lt (c := c) hgt
      exact h.outside _ (.inr (by omega))
  | false =>
    have hbuff : c.recvbuff rank = c.nRanks * c.recvcount := by
      unfold Config.recvbuff
      rw [hplace]
      rfl
    have hle := le_mul_of_lt (c := c) hb
    exact h.outside _ (.inl (by omega))

theorem UserInv.congr {y : Rank α} (huser : y.user = x.user)
    (hdone : y.kernelSteps / (c.nRanks - 1) = x.kernelSteps / (c.nRanks - 1)) :
    UserInv c p finish user rank y := by
  constructor
  · rw [huser, hdone]
    exact h.done
  · rw [huser, hdone]
    exact h.pending
  · rw [huser]
    exact h.outside

/-- The last reduction of a round writes the outcome of its chunk. -/
theorem UserInv.final (hgood : Good c p) {r : ℕ} {v : ℕ → α}
    (hr : x.kernelSteps / (c.nRanks - 1) = r)
    (hv : ∀ e < c.roundCount p r, v e = outcome c finish user rank (r * p.stepCount + e))
    {y : Rank α} (hdone : y.kernelSteps / (c.nRanks - 1) = r + 1) (huser : ∀ a, y.user a =
      if c.recvbuff rank + r * p.stepCount ≤ a ∧
          a < c.recvbuff rank + r * p.stepCount + c.roundCount p r then
        v (a - (c.recvbuff rank + r * p.stepCount))
      else x.user a) : UserInv c p finish user rank y := by
  have hpos := hgood.step_pos
  have hcount : c.roundCount p r ≤ p.stepCount ∧
      c.roundCount p r ≤ c.recvcount - r * p.stepCount :=
    ⟨Nat.min_le_left _ _, Nat.min_le_right _ _⟩
  constructor
  · intro e he hlt
    rw [hdone] at hlt
    rw [huser]
    have hdiv := (Nat.div_lt_iff_lt_mul hpos).mp hlt
    rw [Nat.succ_mul] at hdiv
    rcases Nat.lt_or_ge e (r * p.stepCount) with hbefore | hfrom
    · rw [if_neg (by omega)]
      apply h.done e he
      rw [hr]
      exact (Nat.div_lt_iff_lt_mul hpos).mpr hbefore
    · have hin : e - r * p.stepCount < c.roundCount p r := by
        unfold Config.roundCount
        omega
      rw [if_pos (by omega), show c.recvbuff rank + e - (c.recvbuff rank + r * p.stepCount) =
        e - r * p.stepCount by omega, hv _ hin, Nat.add_sub_cancel' hfrom]
  · intro e he hle
    rw [hdone] at hle
    rw [huser]
    have hdiv := (Nat.le_div_iff_mul_le hpos).mp hle
    rw [Nat.succ_mul] at hdiv
    rw [if_neg (by omega)]
    apply h.pending e he
    omega
  · intro a ha
    rw [huser, if_neg (by omega)]
    exact h.outside a ha

end

section

variable (h : RankInv c p finish user rank x)
include h

/-- What the kernel adds up is the partial sum of the step. -/
theorem RankInv.sum_eq (hgood : Good c p)
    (hrank : rank < c.nRanks) (hphase : x.phase = .reduce) (hsteps : x.kernelSteps = x.number c)
    (hrecv : ∀ e < c.roundCount p x.r, x.recvBuf e = received c p user rank x.r x.i e)
    {e : ℕ} (he : e < c.roundCount p x.r) :
    x.sum finish e =
      if x.i = c.nRanks - 2 then finish (reduced c p user rank x.r x.i e)
      else reduced c p user rank x.r x.i e := by
  obtain ⟨hlt, hdiv⟩ := chunk_div hgood he
  have hown : x.user (c.chunk p (back c.nRanks rank (x.i + 2)) x.r + e) =
      user rank (c.chunk p (back c.nRanks rank (x.i + 2)) x.r + e) := by
    unfold Config.chunk
    rw [Nat.add_assoc]
    apply h.memory.block_eq (back_lt hrank) hlt
    intro _
    rw [hdiv, hsteps, (number_div h.index).1]
  unfold Rank.sum
  rw [h.kElem hphase, hrecv e he]
  simp only [Config.reduceAt, hown, received_add hrank, beq_iff_eq]

/-! ### The steps of a rank -/

theorem RankInv.isendCtrl (hgood : Good c p)
    (hphase : x.phase = .init) : RankInv c p finish user rank (x.isendCtrl p) where
  toCounters := h.toCounters.isendCtrl hgood.rounds_pos hphase
  __ := h
  kElem hreduce := absurd hreduce (head_ne_reduce 0)
  memory := h.memory.congr rfl rfl

theorem RankInv.iput (hphase : x.phase = .waitRts) :
    RankInv c p finish user rank (x.iput c p rank) where
  toCounters := h.toCounters.iput hphase
  puts k put hk := by
    rcases getElem?_concat_cases hk with hold | ⟨rfl, rfl⟩
    · exact h.puts k put hold
    · obtain ⟨hlength, _⟩ := h.at_phase hphase
      have hnumber : x.issued.length = x.number c := hlength
      obtain ⟨hdiv, hmod⟩ := number_div h.index
      have hpos : Rank.putPos c rank = back c.nRanks rank 1 := by
        unfold Rank.putPos back
        rw [Nat.add_comm]
      rw [hnumber, Config.putAt, hdiv, hmod, h.count_eq, hpos]
      rfl
  kElem := nofun
  redBuf := h.redBuf
  memory := h.memory.congr rfl rfl

theorem RankInv.notified (hphase : x.phase = .waitNotify) :
    RankInv c p finish user rank x.notified where
  toCounters := h.toCounters.notified hphase
  __ := h
  kElem := nofun
  memory := h.memory.congr rfl rfl

theorem RankInv.post (hphase : x.phase = .waitPut)
    (hdone : x.delivered = x.issued.length) : RankInv c p finish user rank (x.post c p rank) where
  toCounters := h.toCounters.post hphase hdone
  __ := h
  kElem _ := by
    simp only [Rank.post, Config.reduceAt, h.count_eq, h.redPos, Rank.lastStep, beq_iff_eq]
    rfl
  memory := h.memory.congr rfl rfl

theorem RankInv.sent
    (hlt : x.delivered < x.issued.length) : RankInv c p finish user rank x.sent where
  toCounters := h.toCounters.sent hlt
  __ := h
  memory := h.memory.congr rfl rfl

theorem RankInv.arrive (count : ℕ) (values : ℕ → α) :
    RankInv c p finish user rank (x.arrive count values) where
  __ := h
  memory := h.memory.congr rfl rfl

theorem RankInv.kernel (hgood : Good c p)
    (hrank : rank < c.nRanks) (hposted : x.kernelSteps < x.posted)
    (hrecv : ∀ e < c.roundCount p x.r, x.recvBuf e = received c p user rank x.r x.i e) :
    RankInv c p finish user rank (x.kernel finish) := by
  obtain ⟨hphase, hsteps⟩ := h.reducing hposted
  have hcounters := h.toCounters.kernel finish hposted
  have hkElem := h.kElem hphase
  have hindex := h.index
  have hsum : ∀ e < c.roundCount p x.r, x.sum finish e =
      if x.i = c.nRanks - 2 then finish (reduced c p user rank x.r x.i e)
      else reduced c p user rank x.r x.i e :=
    fun e he => h.sum_eq hgood hrank hphase hsteps hrecv he
  have hold : x.kernelSteps / (c.nRanks - 1) = x.r := by rw [hsteps, (number_div h.index).1]
  have hnew : (x.kernelSteps + 1) / (c.nRanks - 1) =
      if x.i = c.nRanks - 2 then x.r + 1 else x.r := by rw [hsteps, number_succ_div h.index]
  have hnumber : x.kernelSteps = x.r * (c.nRanks - 1) + x.i := hsteps
  by_cases hlast : x.i = c.nRanks - 2
  · have hdst : x.kElem.dst = .user (c.recvbuff rank + x.r * p.stepCount) := by
      rw [hkElem]
      exact if_pos hlast
    rw [if_pos hlast] at hnew
    unfold Rank.kernel at hcounters ⊢
    rw [hdst] at hcounters ⊢
    exact {
      toCounters := hcounters
      __ := h
      redBuf := fun j hj heq => by
        change x.kernelSteps + 1 = x.r * (c.nRanks - 1) + j + 1 at heq
        omega
      memory := by
        apply h.memory.final (v := x.sum finish) hgood hold _ hnew
        · intro a
          rw [hkElem]
          rfl
        · intro e he
          rw [hsum e he, if_pos hlast, hlast, reduced_last hrank, Config.chunk, outcome]
          simp only [Nat.add_assoc] }
  · have hdst : x.kElem.dst = .redBuf := by
      rw [hkElem]
      exact if_neg hlast
    rw [if_neg hlast] at hnew
    unfold Rank.kernel at hcounters ⊢
    rw [hdst] at hcounters ⊢
    exact {
      toCounters := hcounters
      __ := h
      redBuf := fun j hj heq e he => by
        change x.kernelSteps + 1 = x.r * (c.nRanks - 1) + j + 1 at heq
        change e < c.roundCount p x.r at he
        have hcount : e < x.kElem.count := by
          rw [hkElem]
          exact he
        obtain rfl : j = x.i := by omega
        simp only [if_pos hcount]
        rw [hsum e he, if_neg hlast]
      memory := h.memory.congr rfl (hnew.trans hold.symm) }

theorem RankInv.next (hrank : rank < c.nRanks)
    (hphase : x.phase = .reduce) (hdone : x.kernelSteps = x.posted) :
    RankInv c p finish user rank (x.next c p rank) := by
  have hcounters := h.toCounters.next hrank hphase hdone
  unfold Rank.next at hcounters ⊢
  split at hcounters
  · rename_i hmore
    rw [if_pos hmore]
    exact {
      toCounters := hcounters
      __ := h
      kElem := nofun
      memory := h.memory.congr rfl rfl }
  · rename_i hend
    rw [if_neg hend]
    have hnumber := hcounters.atMost
    have hposted := (h.at_phase hphase).2.2.2
    have hround : (x.r + 1) * (c.nRanks - 1) = x.number c + 1 := by
      have hindex := h.index
      unfold Rank.number
      rw [Nat.succ_mul]
      omega
    exact {
      toCounters := hcounters
      puts := h.puts
      kElem := fun hreduce => absurd hreduce (head_ne_reduce _)
      redBuf := fun j _ heq => by
        change x.kernelSteps = (x.r + 1) * (c.nRanks - 1) + j + 1 at heq
        rw [hdone, hposted, hround, Phase.post] at heq
        omega
      memory := h.memory.congr rfl rfl }

end

/-! ### The steps of a link -/

theorem kernel_frame (finish : α → α) (x : Rank α) :
    (x.kernel finish).rtsTaken = x.rtsTaken ∧ (x.kernel finish).rtsSent = x.rtsSent ∧
      (x.kernel finish).delivered = x.delivered ∧ (x.kernel finish).consumed = x.consumed ∧
      (x.kernel finish).kernelSteps = x.kernelSteps + 1 := by
  unfold Rank.kernel
  split <;> exact ⟨rfl, rfl, rfl, rfl, rfl⟩

section

variable (h : LinkInv c p user rank x y)
include h

theorem LinkInv.congr {x' y' : Rank α}
    (htaken : x'.rtsTaken = x.rtsTaken) (hdelivered : x'.delivered = x.delivered)
    (hrts : y.rtsSent ≤ y'.rtsSent) (hconsumed : y'.consumed = y.consumed)
    (hsteps : y'.kernelSteps = y.kernelSteps) (hr : y'.r = y.r) (hi : y'.i = y.i)
    (hrecv : y'.recvBuf = y.recvBuf) : LinkInv c p user rank x' y' := by
  constructor
  · rw [htaken]
    exact h.rts.trans hrts
  · rw [hconsumed, hdelivered]
    exact h.arrived
  · rw [hsteps, hdelivered, hr, hi, hrecv]
    exact h.fresh

theorem LinkInv.reduced (hx : Counters c p rank x)
    (hy : Counters c p (c.right rank) y) {y' : Rank α} (hrts : y.rtsSent ≤ y'.rtsSent)
    (hconsumed : y'.consumed = y.consumed) (hsteps : y.number c + 1 ≤ y'.kernelSteps) :
    LinkInv c p user rank x y' := by
  have hsent := hy.rtsSent_le
  have hissued := hx.issued
  have htaken := hx.rtsTaken
  have hdelivered := hx.delivered
  have htakenLe := h.rts
  constructor
  · exact h.rts.trans hrts
  · rw [hconsumed]
    exact h.arrived
  · intro hlt
    omega

theorem LinkInv.deliver (hx : RankInv c p finish user rank x)
    (hy : RankInv c p finish user (c.right rank) y) (hgood : Good c p) (hrank : rank < c.nRanks)
    {put : Put} (hput : x.issued[x.delivered]? = some put) :
    LinkInv c p user rank x.sent (y.arrive put.count (x.read put.src)) := by
  have hn := c.nRanks_ge
  have hlt : x.delivered < x.issued.length := (List.getElem?_eq_some_iff.mp hput).1
  obtain ⟨hdelivered, hxsteps, hysteps, hnumber⟩ := h.same hx.toCounters hy.toCounters hlt
  obtain ⟨hr, hi⟩ := position_of_number hy.index hx.index hnumber
  obtain ⟨hdiv, hmod⟩ := number_div hx.index
  have hputAt := hx.puts _ _ hput
  rw [hdelivered, Config.putAt, hdiv, hmod] at hputAt
  constructor
  · exact h.rts
  · exact Nat.le_succ_of_le h.arrived
  · intro _ e he
    change e < c.roundCount p y.r at he
    rw [hr] at he
    change (if e < put.count then x.read put.src e else y.recvBuf e) =
      received c p user (c.right rank) y.r y.i e
    rw [hputAt, if_pos he, hr, hi]
    obtain ⟨hin, hround⟩ := chunk_div hgood he
    cases hstep : x.i with
    | zero =>
      rw [received_right_zero hrank]
      simp only [if_true, Rank.read]
      unfold Config.chunk
      rw [Nat.add_assoc]
      apply hx.memory.block_eq (back_lt hrank) hin
      intro hself
      exact absurd hself (back_ne hrank Nat.one_pos hn)
    | succ j =>
      have hindex := hx.index
      rw [received_right_succ hrank (by omega)]
      simp only [Nat.succ_ne_zero, if_false, Rank.read]
      apply hx.redBuf j (by omega) _ e he
      rw [hxsteps, Rank.number, hstep]
      rfl

end

end Facts

/-! ### The run -/

section Run

variable {s : Ring α} {r : ℕ}

section

variable (h : Inv c p finish user s)
include h

theorem Inv.update (hr : r < c.nRanks) {x : Rank α}
    (hx : RankInv c p finish user r x) (hsender : LinkInv c p user r x (s (c.right r)))
    (hreceiver : LinkInv c p user (c.left r) (s (c.left r)) x) :
    Inv c p finish user (Function.update s r x) := by
  constructor
  · intro q hq
    by_cases hqr : q = r
    · subst hqr
      rwa [Function.update_self]
    · rw [Function.update_of_ne hqr]
      exact h.rank q hq
  · intro q hq
    by_cases hqr : q = r
    · subst hqr
      rw [Function.update_self, Function.update_of_ne (Config.right_ne hq)]
      exact hsender
    · rw [Function.update_of_ne hqr]
      by_cases hright : c.right q = r
      · subst hright
        rw [Function.update_self]
        rwa [Config.left_right hq] at hreceiver
      · rw [Function.update_of_ne hright]
        exact h.link q hq

theorem Inv.leftLink (hr : r < c.nRanks) : LinkInv c p user (c.left r) (s (c.left r)) (s r) := by
  have hlink := h.link (c.left r) (Config.left_lt r)
  rwa [Config.right_left hr] at hlink

theorem Inv.deliver (hgood : Good c p) (hr : r < c.nRanks) {put : Put}
    (hput : (s r).issued[(s r).delivered]? = some put) :
    Inv c p finish user (s.deliver c r put) := by
  have hlt : (s r).delivered < (s r).issued.length := (List.getElem?_eq_some_iff.mp hput).1
  have hne := Config.right_ne hr
  have hsent := (h.rank r hr).sent hlt
  have harrive := (h.rank _ (Config.right_lt r)).arrive put.count ((s r).read put.src)
  have hlink := (h.link r hr).deliver (h.rank r hr) (h.rank _ (Config.right_lt r)) hgood hr hput
  unfold Ring.deliver
  constructor
  · intro q hq
    by_cases hright : q = c.right r
    · subst hright
      rwa [Function.update_self]
    · rw [Function.update_of_ne hright]
      by_cases hqr : q = r
      · subst hqr
        rwa [Function.update_self]
      · rw [Function.update_of_ne hqr]
        exact h.rank q hq
  · intro q hq
    by_cases hqr : q = r
    · subst hqr
      rwa [Function.update_self, Function.update_of_ne hne.symm, Function.update_self]
    · have hright : c.right q ≠ c.right r := by
        intro heq
        rw [← Config.left_right hq, heq, Config.left_right hr] at hqr
        exact hqr rfl
      have hreceiver : LinkInv c p user q (s q) (Function.update s r (s r).sent (c.right q)) := by
        by_cases hq' : c.right q = r
        · have hold := h.link q hq
          rw [hq'] at hold ⊢
          rw [Function.update_self]
          exact hold.congr rfl rfl (Nat.le_refl _) rfl rfl rfl rfl rfl
        · rw [Function.update_of_ne hq']
          exact h.link q hq
      rw [Function.update_of_ne hright]
      by_cases hq' : q = c.right r
      · subst hq'
        rw [Function.update_self]
        exact hreceiver.congr rfl rfl (Nat.le_refl _) rfl rfl rfl rfl rfl
      · rw [Function.update_of_ne hq', Function.update_of_ne hqr]
        exact hreceiver

theorem Inv.step (hgood : Good c p) {s' : Ring α}
    (hstep : Ring.Step c p finish s s') : Inv c p finish user s' := by
  cases hstep with
  | @isendCtrl r hr hphase =>
    apply h.update hr ((h.rank r hr).isendCtrl hgood hphase)
    · exact (h.link r hr).congr rfl rfl (Nat.le_refl _) rfl rfl rfl rfl rfl
    · exact (h.leftLink hr).congr rfl rfl (Nat.le_succ _) rfl rfl rfl rfl rfl
  | @iput r hr hphase hrts =>
    apply h.update hr ((h.rank r hr).iput hphase)
    · exact ⟨hrts, (h.link r hr).arrived, (h.link r hr).fresh⟩
    · exact (h.leftLink hr).congr rfl rfl (Nat.le_refl _) rfl rfl rfl rfl rfl
  | @notified r hr hphase harrived =>
    apply h.update hr ((h.rank r hr).notified hphase)
    · exact (h.link r hr).congr rfl rfl (Nat.le_refl _) rfl rfl rfl rfl rfl
    · exact ⟨(h.leftLink hr).rts, harrived, (h.leftLink hr).fresh⟩
  | @post r hr hphase hdone =>
    apply h.update hr ((h.rank r hr).post hphase hdone)
    · exact (h.link r hr).congr rfl rfl (Nat.le_refl _) rfl rfl rfl rfl rfl
    · exact (h.leftLink hr).congr rfl rfl (Nat.le_refl _) rfl rfl rfl rfl rfl
  | @kernel r hr hposted _ =>
    have hrank := h.rank r hr
    have hleft := h.leftLink hr
    obtain ⟨hphase, hsteps⟩ := hrank.reducing hposted
    obtain ⟨_, _, hconsumed, _⟩ := hrank.at_phase hphase
    obtain ⟨htaken, hsent, hdelivered, hconsumed', hsteps'⟩ := kernel_frame finish (s r)
    have hrecv := hleft.fresh (by
      have harrived := hleft.arrived
      rw [hconsumed, Phase.notice] at harrived
      omega)
    rw [Config.right_left hr] at hrecv
    apply h.update hr (hrank.kernel hgood hr hposted hrecv)
    · have hlink := h.link r hr
      constructor
      · rw [htaken]
        exact hlink.rts
      · rw [hdelivered]
        exact hlink.arrived
      · rw [hdelivered]
        exact hlink.fresh
    · have hcounters : Counters c p (c.right (c.left r)) (s r) := by
        rw [Config.right_left hr]
        exact hrank.toCounters
      apply hleft.reduced (h.rank _ (Config.left_lt r)).toCounters hcounters hsent.ge hconsumed'
      omega
  | @next r hr hphase hdone =>
    have hrank := h.rank r hr
    obtain ⟨_, _, _, hposted⟩ := hrank.at_phase hphase
    obtain ⟨htaken, hsent, hdelivered, hconsumed, hsteps⟩ := next_frame c p r (s r)
    apply h.update hr (hrank.next hr hphase hdone)
    · have hlink := h.link r hr
      constructor
      · rw [htaken]
        exact hlink.rts
      · rw [hdelivered]
        exact hlink.arrived
      · rw [hdelivered]
        exact hlink.fresh
    · have hcounters : Counters c p (c.right (c.left r)) (s r) := by
        rw [Config.right_left hr]
        exact hrank.toCounters
      apply (h.leftLink hr).reduced (h.rank _ (Config.left_lt r)).toCounters hcounters hsent hconsumed
      rw [hsteps, hdone, hposted]
      rfl
  | deliver hr hput => exact h.deliver hgood hr hput

end

theorem inv_initial (hgood : Good c p) (user scratch : ℕ → ℕ → α) :
    Inv c p finish user fun r => .initial c r (user r) (scratch r) := by
  constructor
  · intro r _
    exact {
      toCounters := counters_initial hgood.rounds_pos _ _
      puts := nofun
      kElem := nofun
      redBuf := nofun
      memory := {
        done := fun e _ hlt => by
          change _ < 0 / (c.nRanks - 1) at hlt
          rw [Nat.zero_div] at hlt
          exact absurd hlt (Nat.not_lt_zero _)
        pending := fun _ _ _ => rfl
        outside := fun _ _ => rfl } }
  · intro r _
    exact ⟨Nat.le_refl _, Nat.le_refl _, nofun⟩

theorem Ring.Reachable.inv (hgood : Good c p) (h : Ring.Reachable c p finish user scratch s) :
    Inv c p finish user s := by
  induction h with
  | refl => exact inv_initial hgood user scratch
  | tail _ hstep ih => exact ih.step hgood hstep

end Run

end TorchComms.Algos.ReduceScatterRing
