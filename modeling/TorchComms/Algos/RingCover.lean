import TorchComms.Algos.RingPartition

/-! # The partitions cover the data

Where the sizes fit their types, what is left is nothing or enough for a shard of each rank. So the
partitions are, and their shards and chunks tile the data.
-/
namespace TorchComms.Algos.AllReduceRing

open Foundation

namespace AlgoContext

variable (c : AlgoContext)

/-- Where a shard begins. -/
def shardOffset (shardId : ℕ) : ℕ := c.partitionOffset + shardId * c.shardNumel

def shards : List (ℕ × ℕ) :=
  (List.range c.numShards).map fun i => (c.shardOffset i, c.getShardNumel i)

end AlgoContext

/-- The chunks of a step that begins with the round `startRound`. -/
def AlgoArgs.chunks (x : AlgoArgs) (c : AlgoContext) (op : Op) (step : ℕ) (startRound : ℤ) :
    List (ℕ × ℕ) :=
  (List.range (x.countChunksPerShard c (c.getStepShardIdx op step)).toNat).map fun (r : ℕ) =>
    ((x.getRoundArgs c op (startRound + r) ⟨step, startRound⟩).dataOffsetElem,
      (x.getRoundArgs c op (startRound + r) ⟨step, startRound⟩).numel)

/-- No subtraction for a partition wraps. -/
structure NoWrap (x : AlgoArgs) (c : AlgoContext) : Prop where
  remain : c.partitionOffset ≤ x.numElements
  tail : x.totalTmpNumel ≤ x.remainNumel c →
    x.remainNumel c < x.totalTmpNumel + x.minPartitionNumel → x.minPartitionNumel ≤ x.remainNumel c
  lastShard : c.shardNumel * (c.numShards - 1) ≤ c.partitionNumel
  lastChunk : ∀ i < c.numShards, ∀ r < (x.countChunksPerShard c i).toNat,
    x.numelPerChunk * r ≤ c.getShardNumel i

/-- The shards of a partition tile it, and the chunks of each step its shard. Every shard has its
steps. -/
structure Shared (x : AlgoArgs) (c : AlgoContext) : Prop where
  numel : x.nRanks ≤ c.partitionNumel
  noWrap : NoWrap x c
  shards : Tiles c.partitionNumel c.partitionOffset c.shards (c.partitionOffset + c.partitionNumel)
  visited : ∀ op, ∀ i < c.numShards, ∃ step < c.numSteps, c.getStepShardIdx op step = i
  counted : ∀ i < c.numShards, 1 ≤ x.countChunksPerShard c i
  chunks : ∀ op step startRound,
    (∀ p ∈ x.chunks c op step startRound, p.2 * x.typeSize ≤ x.chunkSize) ∧
    Tiles x.numelPerChunk (c.shardOffset (c.getStepShardIdx op step))
      (x.chunks c op step startRound) (c.shardOffset (c.getStepShardIdx op step) +
        c.getShardNumel (c.getStepShardIdx op step))

/-- The loop ends, and its partitions tile the data. -/
def Partitioned (x : AlgoArgs) : Prop :=
  ∃ fuel cs, partitions x fuel x.setupAlgoCtxImpl = some cs ∧
    Tiles x.totalTmpNumel 0 (cs.map fun c => (c.partitionOffset, c.partitionNumel)) x.numElements ∧
    ∀ c ∈ cs, Shared x c

/-- The elements of the temporary chunks and of a smallest partition are counted by `size_t`, the
chunks of a shard by `int`. -/
structure Ranged (x : AlgoArgs) : Prop where
  size : (x.chunkSize * x.numChunks + x.minShardSize) * x.nRanks < 2 ^ 64
  count : x.numChunks + x.nRanks ≤ 2 ^ 31

/-! ### The sizes -/

structure Sized (x : AlgoArgs) : Prop where
  chunk : x.numelPerChunk * x.typeSize = x.chunkSize
  chunk_pos : 1 ≤ x.numelPerChunk
  total : x.totalTmpNumel = x.numelPerChunk * x.numChunks * x.nRanks
  min_ge : x.nRanks ≤ x.minPartitionNumel
  min_le : x.minPartitionNumel + x.nRanks ≤ x.totalTmpNumel
  total_lt : x.totalTmpNumel + x.minPartitionNumel < 2 ^ 64

theorem Ranged.sized {x : AlgoArgs} (h : Ranged x) : Sized x := by
  have hchunk : x.numelPerChunk * x.typeSize = x.chunkSize := Nat.div_mul_cancel x.chunkSize_dvd
  have hpos := x.typeSize_pos
  have hranks := x.nRanks_ge
  have hexpand : (x.chunkSize * x.numChunks + x.minShardSize) * x.nRanks =
      x.chunkSize * x.numChunks * x.nRanks + x.minShardSize * x.nRanks := by ring
  have hsize := h.size
  rw [hexpand] at hsize
  have hbytes : x.numelPerChunk * x.numChunks * x.nRanks * x.typeSize =
      x.chunkSize * x.numChunks * x.nRanks := by
    rw [← hchunk]
    ring
  have helems : x.numelPerChunk * x.numChunks * x.nRanks ≤ x.chunkSize * x.numChunks * x.nRanks :=
    hbytes ▸ Nat.le_mul_of_pos_right _ hpos
  have honce : x.numelPerChunk * x.numChunks ≤ x.numelPerChunk * x.numChunks * x.nRanks :=
    Nat.le_mul_of_pos_right _ (by omega)
  have htotal : x.totalTmpNumel = x.numelPerChunk * x.numChunks * x.nRanks := by
    have hinner : x.numelPerChunk * x.numChunks % 2 ^ 64 = x.numelPerChunk * x.numChunks :=
      Nat.mod_eq_of_lt (by omega)
    unfold AlgoArgs.totalTmpNumel
    rw [hinner, Nat.mod_eq_of_lt (by omega)]
  have hmin : x.minPartitionNumel = x.minShardSize * x.nRanks / x.typeSize := by
    unfold AlgoArgs.minPartitionNumel
    rw [Nat.mod_eq_of_lt (by omega)]
  have hminle : x.minPartitionNumel ≤ x.minShardSize * x.nRanks := hmin ▸ Nat.div_le_self _ _
  have hminBytes : x.minPartitionNumel * x.typeSize ≤ x.minShardSize * x.nRanks :=
    hmin ▸ Nat.div_mul_le_self _ _
  constructor
  case chunk => exact hchunk
  case chunk_pos => exact Nat.div_pos (Nat.le_of_dvd x.chunkSize_pos x.chunkSize_dvd) hpos
  case total => exact htotal
  case min_ge =>
    rw [hmin, Nat.le_div_iff_mul_le hpos, Nat.mul_comm]
    exact Nat.mul_le_mul_right _ x.minShardSize_ge
  case min_le =>
    rw [htotal]
    apply Nat.le_of_mul_le_mul_right _ hpos
    calc (x.minPartitionNumel + x.nRanks) * x.typeSize
        = x.minPartitionNumel * x.typeSize + x.typeSize * x.nRanks := by ring
      _ ≤ x.minShardSize * x.nRanks + x.typeSize * x.nRanks := Nat.add_le_add_right hminBytes _
      _ = (x.minShardSize + x.typeSize) * x.nRanks := by ring
      _ ≤ x.chunkSize * x.numChunks * x.nRanks := Nat.mul_le_mul_right _ x.minShardSize_le
      _ = x.numelPerChunk * x.numChunks * x.nRanks * x.typeSize := hbytes.symm
  case total_lt => omega

/-! ### A partition -/

variable {x : AlgoArgs} {c : AlgoContext} {fuel i : ℕ}

/-- What is left is enough for a partition. -/
structure Ready (x : AlgoArgs) (c : AlgoContext) : Prop where
  offset : c.partitionOffset ≤ x.numElements
  remain : x.nRanks ≤ x.numElements - c.partitionOffset

theorem remainNumel_eq (hoffset : c.partitionOffset ≤ x.numElements) :
    x.remainNumel c = x.numElements - c.partitionOffset :=
  subSize_of_le hoffset x.numElements_lt

/-- A partition is as long as it may be, unless what comes after it would be too short. -/
structure Cut (x : AlgoArgs) (c : AlgoContext) : Prop where
  offset : c.partitionOffset + c.partitionNumel ≤ x.numElements
  numel_ge : x.nRanks ≤ c.partitionNumel
  numel_le : c.partitionNumel ≤ x.totalTmpNumel
  next : c.partitionOffset + c.partitionNumel = x.numElements ∨
    x.nRanks ≤ x.numElements - (c.partitionOffset + c.partitionNumel)
  numShards : c.numShards = x.nRanks
  shardNumel : c.shardNumel = c.partitionNumel / x.nRanks
  numSteps : c.numSteps = x.nRanks * 2 - 2

theorem Sized.cut (h : Sized x) (hready : Ready x c) : Cut x (x.updatePartitionCtx c) := by
  have hoffset := hready.offset
  have hremain := hready.remain
  have heq := remainNumel_eq hoffset
  have hlt := x.numElements_lt
  have hge := h.min_ge
  have hle := h.min_le
  have hsum : (x.totalTmpNumel + x.minPartitionNumel) % 2 ^ 64 =
      x.totalTmpNumel + x.minPartitionNumel := Nat.mod_eq_of_lt h.total_lt
  -- the three cases of the source
  have hnumel : (x.cutPartition c).partitionNumel =
      if x.numElements - c.partitionOffset < x.totalTmpNumel then x.numElements - c.partitionOffset
      else if x.numElements - c.partitionOffset < x.totalTmpNumel + x.minPartitionNumel then
        x.numElements - c.partitionOffset - x.minPartitionNumel
      else x.totalTmpNumel := by
    unfold AlgoArgs.cutPartition
    simp only [heq, hsum]
    split_ifs with hshort htail
    · rfl
    · exact subSize_of_le (by omega) (by omega)
    · rfl
  rw [← x.updatePartitionCtx_partitionNumel] at hnumel
  constructor
  case offset =>
    rw [hnumel, x.updatePartitionCtx_partitionOffset]
    split_ifs <;> omega
  case numel_ge =>
    rw [hnumel]
    split_ifs <;> omega
  case numel_le =>
    rw [hnumel]
    split_ifs <;> omega
  case next =>
    rw [hnumel, x.updatePartitionCtx_partitionOffset]
    split_ifs <;> omega
  case numShards => rfl
  case shardNumel => rfl
  case numSteps => rfl

/-- The partitions tile what is left, each cut from a context in which enough is. -/
theorem Sized.partitions (h : Sized x) (hoffset : c.partitionOffset ≤ x.numElements)
    (hnext : c.partitionOffset = x.numElements ∨ x.nRanks ≤ x.numElements - c.partitionOffset)
    (hfuel : x.numElements - c.partitionOffset < fuel) :
    ∃ cs, partitions x fuel c = some cs ∧
      Tiles x.totalTmpNumel c.partitionOffset
        (cs.map fun c => (c.partitionOffset, c.partitionNumel)) x.numElements ∧
      ∀ c' ∈ cs, Cut x c' := by
  induction fuel generalizing c with
  | zero => omega
  | succ fuel ih =>
    rw [AllReduceRing.partitions]
    by_cases hdone : c.partitionOffset < x.numElements
    · rw [if_pos hdone]
      have hcut := h.cut (Ready.mk hoffset (hnext.resolve_left hdone.ne))
      have hranks := x.nRanks_ge
      have hpos := hcut.numel_ge
      have hle := hcut.offset
      have hlt := x.numElements_lt
      have hdoneOffset : (updatePartitionDone (x.updatePartitionCtx c)).partitionOffset =
          (x.updatePartitionCtx c).partitionOffset + (x.updatePartitionCtx c).partitionNumel := by
        rw [updatePartitionDone_partitionOffset, Nat.mod_eq_of_lt (by omega)]
      have hsame := x.updatePartitionCtx_partitionOffset c
      rcases ih (c := updatePartitionDone (x.updatePartitionCtx c)) (by omega)
        (by rw [hdoneOffset]; exact hcut.next) (by omega) with ⟨cs, hcs, htiles, hall⟩
      rw [hdoneOffset, hsame] at htiles
      refine ⟨x.updatePartitionCtx c :: cs, by rw [hcs]; rfl, ?_, ?_⟩
      · rw [List.map_cons]
        exact ⟨hsame, Nat.le_trans (by omega) hpos, hcut.numel_le, htiles⟩
      · intro c' hc'
        rcases List.mem_cons.mp hc' with rfl | hc'
        · exact hcut
        · exact hall c' hc'
    · rw [if_neg hdone]
      refine ⟨[], rfl, ?_, by simp⟩
      exact Nat.le_antisymm hoffset (Nat.le_of_not_lt hdone)

/-! ### Its shards -/

theorem Cut.sum_lt (h : Cut x c) (hi : i < x.nRanks) :
    c.shardNumel * i ≤ c.partitionNumel - c.shardNumel := by
  have hle : c.shardNumel * x.nRanks ≤ c.partitionNumel :=
    h.shardNumel ▸ Nat.div_mul_le_self _ _
  have hstep : c.shardNumel * i + c.shardNumel ≤ c.shardNumel * x.nRanks := by
    rw [← Nat.mul_succ]
    exact Nat.mul_le_mul_left _ hi
  omega

theorem Cut.shardNumel_pos (h : Cut x c) : 1 ≤ c.shardNumel := by
  have hranks := x.nRanks_ge
  rw [h.shardNumel]
  exact Nat.div_pos h.numel_ge (by omega)

theorem Cut.getShardNumel_eq (h : Cut x c) (i : ℕ) : c.getShardNumel i =
    if i = x.nRanks - 1 then c.partitionNumel - c.shardNumel * (x.nRanks - 1)
    else c.shardNumel := by
  have hranks := x.nRanks_ge
  have hlt := x.numElements_lt
  have hoffset := h.offset
  have hlast := h.sum_lt (i := x.nRanks - 1) (by omega)
  unfold AlgoContext.getShardNumel
  rw [h.numShards, Nat.mod_eq_of_lt (by omega), subSize_of_le (by omega) (by omega)]

theorem Cut.shards_tile (h : Cut x c) :
    Tiles c.partitionNumel c.partitionOffset c.shards (c.partitionOffset + c.partitionNumel) := by
  have hranks := x.nRanks_ge
  have hpos := h.shardNumel_pos
  have hlast := h.sum_lt (i := x.nRanks - 1) (by omega)
  have hle : c.shardNumel ≤ c.partitionNumel := h.shardNumel ▸ Nat.div_le_self _ _
  have htiles := tiles_range (n := x.nRanks) (m := c.partitionNumel)
    (f := fun i => if i < x.nRanks then c.shardOffset i else c.partitionOffset + c.partitionNumel)
    (g := c.getShardNumel) (by
      intro i hi
      rw [h.getShardNumel_eq, if_pos hi]
      unfold AlgoContext.shardOffset
      by_cases hend : i = x.nRanks - 1
      · have hcomm : i * c.shardNumel = c.shardNumel * (x.nRanks - 1) := by
          rw [hend, Nat.mul_comm]
        rw [if_pos hend, if_neg (by omega)]
        omega
      · rw [if_neg hend, if_pos (by omega), Nat.succ_mul]
        omega)
  rw [if_pos (by omega), if_neg (Nat.lt_irrefl _)] at htiles
  have hstart : c.shardOffset 0 = c.partitionOffset := by
    unfold AlgoContext.shardOffset
    rw [Nat.zero_mul, Nat.add_zero]
  have hsame : c.shards = (List.range x.nRanks).map fun i =>
      (if i < x.nRanks then c.shardOffset i else c.partitionOffset + c.partitionNumel,
        c.getShardNumel i) := by
    unfold AlgoContext.shards
    rw [h.numShards]
    apply List.map_congr_left
    intro i hi
    rw [if_pos (List.mem_range.mp hi)]
  rw [hstart] at htiles
  rw [hsame]
  exact htiles

theorem exists_shift (idx : ℕ) {n i : ℕ} (hi : i < n) : ∃ step < n, (idx + (n - step % n)) % n = i := by
  have hidx := Nat.mod_lt idx (Nat.zero_lt_of_lt hi)
  by_cases hle : i ≤ idx % n
  · have hstep : idx % n - i < n := by omega
    refine ⟨idx % n - i, hstep, ?_⟩
    rw [Nat.mod_eq_of_lt hstep, ← Nat.mod_add_mod]
    have hsum : idx % n + (n - (idx % n - i)) = i + n := by omega
    rw [hsum, Nat.add_mod_right, Nat.mod_eq_of_lt hi]
  · have hstep : idx % n + n - i < n := by omega
    refine ⟨idx % n + n - i, hstep, ?_⟩
    rw [Nat.mod_eq_of_lt hstep, ← Nat.mod_add_mod]
    have hsum : idx % n + (n - (idx % n + n - i)) = i := by omega
    rw [hsum, Nat.mod_eq_of_lt hi]

theorem Cut.visited (h : Cut x c) (op : Op) (hi : i < c.numShards) :
    ∃ step < c.numSteps, c.getStepShardIdx op step = i := by
  have hranks := x.nRanks_ge
  have hshards := h.numShards
  have hsteps := h.numSteps
  cases op with
  | kSendCopy | kSendTrans =>
    rcases exists_shift c.sendDataShardIdx hi with ⟨step, hstep, heq⟩
    exact ⟨step, by omega, heq⟩
  | kRecvTrans | kRecvFlush | kRecvRedCopy =>
    rcases exists_shift c.recvDataShardIdx hi with ⟨step, hstep, heq⟩
    exact ⟨step, by omega, heq⟩

theorem Cut.getStepShardIdx_lt (h : Cut x c) (op : Op) (step : ℕ) :
    c.getStepShardIdx op step < x.nRanks := by
  have hranks := x.nRanks_ge
  rw [← h.numShards]
  have hpos : 0 < c.numShards := by
    rw [h.numShards]
    omega
  cases op <;> exact Nat.mod_lt _ hpos

/-! ### Their chunks -/

/-- A shard is a little longer at most than what the temporary chunks of a rank hold. -/
structure Bounded (x : AlgoArgs) (S : ℕ) : Prop where
  pos : 1 ≤ S
  le : S ≤ x.numelPerChunk * x.numChunks + x.nRanks - 1

theorem Cut.bounded (h : Cut x c) (hsized : Sized x) (i : ℕ) : Bounded x (c.getShardNumel i) := by
  have hranks := x.nRanks_ge
  have hpos := h.shardNumel_pos
  have hlast := h.sum_lt (i := x.nRanks - 1) (by omega)
  have hle : c.shardNumel ≤ x.numelPerChunk * x.numChunks := by
    rw [h.shardNumel]
    apply Nat.div_le_of_le_mul
    rw [Nat.mul_comm, ← hsized.total]
    exact h.numel_le
  have hrest : c.partitionNumel - c.shardNumel * (x.nRanks - 1) ≤ c.shardNumel + x.nRanks - 1 := by
    have hdiv := Nat.div_add_mod c.partitionNumel x.nRanks
    have hmod := Nat.mod_lt c.partitionNumel (y := x.nRanks) (by omega)
    rw [← h.shardNumel] at hdiv
    have hsplit : x.nRanks * c.shardNumel = c.shardNumel * (x.nRanks - 1) + c.shardNumel := by
      rw [← Nat.mul_succ, Nat.mul_comm, Nat.succ_eq_add_one, Nat.sub_add_cancel (by omega)]
    omega
  have hmin : c.shardNumel ≤ c.partitionNumel := h.shardNumel ▸ Nat.div_le_self _ _
  rw [h.getShardNumel_eq]
  constructor
  · split_ifs <;> omega
  · split_ifs <;> omega

/-- The chunks of a shard of that size. -/
def countChunks (x : AlgoArgs) (S : ℕ) : ℕ := (S + x.numelPerChunk - 1) / x.numelPerChunk

variable {S : ℕ}

theorem Bounded.count_lt (h : Bounded x S) (hsized : Sized x) (hrange : Ranged x) :
    countChunks x S < 2 ^ 31 := by
  have hcount := hrange.count
  have hle := h.le
  have hranks := x.nRanks_ge
  have hchunk := hsized.chunk_pos
  -- a chunk of one element holds the least
  have hrank : x.numelPerChunk + x.nRanks ≤ x.numelPerChunk * (x.nRanks - 1) + 2 := by
    rcases Nat.exists_eq_add_of_le hchunk with ⟨a, ha⟩
    rcases Nat.exists_eq_add_of_le hranks with ⟨b, hb⟩
    have hpred : x.nRanks - 1 = 1 + b := by omega
    have hexpand : (1 + a) * (1 + b) = 1 + a + b + a * b := by ring
    rw [hpred, ha, hb, hexpand]
    omega
  have hbound : countChunks x S ≤ x.numChunks + (x.nRanks - 1) := by
    apply Nat.div_le_of_le_mul
    rw [Nat.mul_add]
    omega
  omega

theorem Bounded.add_lt (h : Bounded x S) (hsized : Sized x) : S + x.numelPerChunk < 2 ^ 64 := by
  have hle := h.le
  have hmin := hsized.min_ge
  have hlt := hsized.total_lt
  have htwice : x.numelPerChunk * x.numChunks * 2 ≤ x.numelPerChunk * x.numChunks * x.nRanks :=
    Nat.mul_le_mul_left _ x.nRanks_ge
  have honce : x.numelPerChunk ≤ x.numelPerChunk * x.numChunks :=
    Nat.le_mul_of_pos_right _ x.numChunks_pos
  rw [hsized.total] at hlt
  omega

theorem Cut.countChunksPerShard_eq (h : Cut x c) (hsized : Sized x) (hrange : Ranged x) (i : ℕ) :
    x.countChunksPerShard c i = countChunks x (c.getShardNumel i) := by
  have hbounded := h.bounded hsized i
  have hadd := hbounded.add_lt hsized
  have hcount := hbounded.count_lt hsized hrange
  unfold countChunks at hcount ⊢
  unfold AlgoArgs.countChunksPerShard
  rw [Nat.mod_eq_of_lt (by omega), toInt_of_lt hcount]

theorem Bounded.spans (h : Bounded x S) (hsized : Sized x) :
    Spans x.numelPerChunk S (countChunks x S) 0 := spans_ceil hsized.chunk_pos h.pos

theorem Bounded.mul_lt {S r : ℕ} (h : Bounded x S) (hsized : Sized x) (hr : r < countChunks x S) :
    r * x.numelPerChunk < S := by
  have hstart := (h.spans hsized).start
  have hle : (r + 1) * x.numelPerChunk ≤ countChunks x S * x.numelPerChunk :=
    Nat.mul_le_mul_right _ hr
  rw [Nat.succ_mul] at hle
  omega

theorem Cut.shard_le (h : Cut x c) (hi : i < x.nRanks) :
    c.shardOffset i + c.getShardNumel i ≤ x.numElements := by
  have hoffset := h.offset
  have hsum := h.sum_lt hi
  have hle : c.shardNumel ≤ c.partitionNumel := h.shardNumel ▸ Nat.div_le_self _ _
  unfold AlgoContext.shardOffset
  rw [h.getShardNumel_eq, Nat.mul_comm]
  split_ifs with hlast
  · rw [← hlast]
    omega
  · omega

section

variable (h : Cut x c) (hsized : Sized x) (hrange : Ranged x)
include h hsized hrange

theorem Cut.getRoundArgs_eq (op : Op) (step r : ℕ) (startRound : ℤ)
    (hr : r < countChunks x (c.getShardNumel (c.getStepShardIdx op step))) :
    (x.getRoundArgs c op (startRound + r) ⟨step, startRound⟩).numel =
      (if (r + 1) * x.numelPerChunk ≤ c.getShardNumel (c.getStepShardIdx op step) then
        x.numelPerChunk
      else c.getShardNumel (c.getStepShardIdx op step) - r * x.numelPerChunk) ∧
    (x.getRoundArgs c op (startRound + r) ⟨step, startRound⟩).dataOffsetElem =
      c.shardOffset (c.getStepShardIdx op step) + r * x.numelPerChunk := by
  have hbounded := h.bounded hsized (c.getStepShardIdx op step)
  have hadd := hbounded.add_lt hsized
  have hcount := hbounded.count_lt hsized hrange
  have hmul := hbounded.mul_lt hsized hr
  have hend := h.shard_le (h.getStepShardIdx_lt op step)
  have hlt := x.numElements_lt
  have hround : startRound + (r : ℤ) - startRound = r := by omega
  have hsize : toSize (r : ℤ) = r := toSize_natCast (by omega)
  have hnext : toSize ((r : ℤ) + 1) = r + 1 := by
    have hcast : (r : ℤ) + 1 = ((r + 1 : ℕ) : ℤ) := by push_cast; rfl
    rw [hcast, toSize_natCast (by omega)]
  have hsucc : (r + 1) * x.numelPerChunk = r * x.numelPerChunk + x.numelPerChunk :=
    Nat.succ_mul r x.numelPerChunk
  unfold AlgoArgs.getRoundArgs
  simp only [hround, hsize, hnext]
  constructor
  · rw [Nat.mod_eq_of_lt (by omega)]
    split_ifs with hfull
    · rfl
    · rw [Nat.mul_comm, Nat.mod_eq_of_lt (by omega), subSize_of_le (by omega) (by omega)]
  · unfold AlgoContext.shardOffset at hend ⊢
    rw [Nat.mod_eq_of_lt (by omega)]

theorem Cut.chunks_tile (op : Op) (step : ℕ)
    (startRound : ℤ) : Tiles x.numelPerChunk (c.shardOffset (c.getStepShardIdx op step))
      (x.chunks c op step startRound) (c.shardOffset (c.getStepShardIdx op step) +
        c.getShardNumel (c.getStepShardIdx op step)) := by
  have hbounded := h.bounded hsized (c.getStepShardIdx op step)
  have hspans := hbounded.spans hsized
  have hargs := h.getRoundArgs_eq hsized hrange op step
  have hchunk := hsized.chunk_pos
  generalize hS : c.getShardNumel (c.getStepShardIdx op step) = S at *
  generalize ho : c.shardOffset (c.getStepShardIdx op step) = o at *
  have htiles := tiles_range (n := countChunks x S) (m := x.numelPerChunk)
    (f := fun r => o + min (r * x.numelPerChunk) S)
    (g := fun r => if (r + 1) * x.numelPerChunk ≤ S then x.numelPerChunk
      else S - r * x.numelPerChunk) (by
      intro r hr
      have hmul := hbounded.mul_lt hsized hr
      have hsucc : (r + 1) * x.numelPerChunk = r * x.numelPerChunk + x.numelPerChunk :=
        Nat.succ_mul r x.numelPerChunk
      split_ifs <;> omega)
  have hstart : o + min (0 * x.numelPerChunk) S = o := by omega
  have hstop : o + min (countChunks x S * x.numelPerChunk) S = o + S := by
    have hle := hspans.stop
    omega
  simp only [hstart, hstop] at htiles
  have hsame : x.chunks c op step startRound = (List.range (countChunks x S)).map fun r =>
      (o + min (r * x.numelPerChunk) S, if (r + 1) * x.numelPerChunk ≤ S then x.numelPerChunk
        else S - r * x.numelPerChunk) := by
    unfold AlgoArgs.chunks
    rw [h.countChunksPerShard_eq hsized hrange, hS, Int.toNat_natCast]
    apply List.map_congr_left
    intro r hr
    have hlt := List.mem_range.mp hr
    have hmul := hbounded.mul_lt hsized hlt
    rcases hargs r startRound hlt with ⟨hnumel, hoffset⟩
    rw [hnumel, hoffset, Nat.min_eq_left hmul.le]
  rw [hsame]
  exact htiles

/-! ### All of it -/

theorem Cut.noWrap : NoWrap x c := by
  have hranks := x.nRanks_ge
  have hmin := hsized.min_le
  constructor
  case remain => exact (Nat.le_add_right _ _).trans h.offset
  case tail =>
    intro htotal _
    omega
  case lastShard =>
    have hlast := h.sum_lt (i := x.nRanks - 1) (by omega)
    rw [h.numShards]
    omega
  case lastChunk =>
    intro i _ r hr
    rw [h.countChunksPerShard_eq hsized hrange, Int.toNat_natCast] at hr
    rw [Nat.mul_comm]
    exact ((h.bounded hsized i).mul_lt hsized hr).le

end

-- the chunks are not to be computed
attribute [local irreducible] Tiles in
theorem Cut.shared (h : Cut x c) (hsized : Sized x) (hrange : Ranged x) : Shared x c := by
  constructor
  case numel => exact h.numel_ge
  case noWrap => exact h.noWrap hsized hrange
  case shards => exact h.shards_tile
  case visited => exact fun op i hi => h.visited op hi
  case counted =>
    intro i _
    have hpos := ((h.bounded hsized i).spans hsized).pos
    rw [h.countChunksPerShard_eq hsized hrange]
    omega
  case chunks =>
    intro op step startRound
    have htiles := h.chunks_tile hsized hrange op step startRound
    apply And.intro _ htiles
    intro p hp
    have hle := htiles.length_le p hp
    rw [← hsized.chunk]
    exact Nat.mul_le_mul_right _ hle

/-- The loop ends with partitions that tile the data, where the sizes fit their types. -/
theorem ring_partitioned (x : AlgoArgs) (hrange : Ranged x) : Partitioned x := by
  have hsized := hrange.sized
  have hge := x.numElements_ge
  have hoffset : x.setupAlgoCtxImpl.partitionOffset = 0 := rfl
  rcases hsized.partitions (c := x.setupAlgoCtxImpl) (by omega) (by omega)
    (Nat.lt_succ_self _) with ⟨cs, hcs, htiles, hall⟩
  exact ⟨_, cs, hcs, htiles, fun c hc => (hall c hc).shared hsized hrange⟩

/-- Chunks of one byte and two ranks. -/
def byteArgs (numElements chunkSize numChunks : ℕ) (hlt : numElements < 2 ^ 64)
    (hge : 2 ≤ numElements) (hpos : 1 ≤ chunkSize) (hsize : chunkSize < 2 ^ 64)
    (hnum : 1 ≤ numChunks) (hnumLt : numChunks < 2 ^ 32) (hmin : 1 + 1 ≤ chunkSize * numChunks) :
    AlgoArgs where
  numElements := numElements
  rank := 0
  nRanks := 2
  chunkSize := chunkSize
  numChunks := numChunks
  minShardSize := 1
  typeSize := 1
  numElements_lt := hlt
  numElements_ge := hge
  rank_lt := Nat.two_pos
  nRanks_ge := Nat.one_lt_two
  nRanks_lt := by decide
  typeSize_pos := Nat.one_pos
  chunkSize_pos := hpos
  chunkSize_lt := hsize
  chunkSize_dvd := Nat.one_dvd _
  numChunks_pos := hnum
  numChunks_lt := hnumLt
  minShardSize_lt := by decide
  minShardSize_ge := Nat.one_pos
  minShardSize_le := hmin

/-- Partitions of 8, 7 and 2 elements. -/
theorem ring_partitioned_bytes : Partitioned (byteArgs 17 2 2 (by decide) (by decide) (by decide)
    (by decide) (by decide) (by decide) (by decide)) :=
  ring_partitioned _ ⟨by decide, by decide⟩

theorem mem_of_partitions {cs : List AlgoContext} (h : partitions x fuel c = some cs)
    (hmore : c.partitionOffset < x.numElements) : x.updatePartitionCtx c ∈ cs := by
  cases fuel with
  | zero => cases h
  | succ fuel =>
    rw [partitions, if_pos hmore, Option.map_eq_some_iff] at h
    rcases h with ⟨rest, hrest, rfl⟩
    exact List.mem_cons_self

/-- With chunks of `2 ^ 63` bytes the temporary elements wrap to none, so no partition ever covers
anything. With nearly `2 ^ 32` chunks of a byte, a shard of `2 ^ 31` elements has a negative number
of chunks. -/
theorem not_partitioned_wide :
    ¬ Partitioned (byteArgs 2 (2 ^ 63) 1 (by decide) (by decide) (by decide) (by decide) (by decide)
      (by decide) (by decide)) ∧
    ¬ Partitioned (byteArgs (2 ^ 32) 1 (2 ^ 32 - 1) (by decide) (by decide) (by decide) (by decide)
      (by decide) (by decide) (by decide)) := by
  constructor
  · rintro ⟨fuel, cs, hcs, -, hall⟩
    have hnumel := (hall _ (mem_of_partitions hcs (by decide))).numel
    revert hnumel
    decide +kernel
  · rintro ⟨fuel, cs, hcs, -, hall⟩
    have hcounted := (hall _ (mem_of_partitions hcs (by decide))).counted 0 (by decide +kernel)
    revert hcounted
    decide +kernel

end TorchComms.Algos.AllReduceRing
