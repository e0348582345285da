import TorchComms.CommSpecs
import TorchComms.Foundation.MachineWords
import TorchComms.Foundation.RingSlot
import TorchComms.AllToAllvDedup.Prepare

/-! # Chunks and their slots

A chunk begins with a header: its length and its sender, a bitmap and an id for each block. The
header is rounded up before the blocks, the number of blocks that a chunk has room for is computed
without that. Sizes are `size_t`.
-/
namespace TorchComms

/-- `commDataType_t`, the types that have a size. -/
inductive CommDataType
  | commInt8
  | commUint8
  | commInt32
  | commUint32
  | commInt64
  | commUint64
  | commFloat16
  | commFloat32
  | commFloat64
  | commBfloat16
  | commFloat8e4m3
  | commFloat8e5m2
  deriving DecidableEq, Repr

def commTypeSize : CommDataType → ℕ
  | .commInt8 | .commUint8 | .commFloat8e4m3 | .commFloat8e5m2 => 1
  | .commFloat16 | .commBfloat16 => 2
  | .commInt32 | .commUint32 | .commFloat32 => 4
  | .commInt64 | .commUint64 | .commFloat64 => 8

namespace AllToAllvDedup

open Foundation

def MAX_NUM_BLOCKS_PER_CHUNK : ℕ := 512

def CTRAN_ALGO_MAX_THREAD_BLOCKS : ℤ := 64

/-- The arguments of `allToAllvDedupInit`, a `size_t` and an `int` of them, and the configuration
variables that it reads, all `int`. -/
structure InitArgs where
  blockCount : ℕ
  numRecvBuckets : ℤ
  datatype : CommDataType
  CHUNK_SIZE : ℤ
  NUM_CHUNKS : ℤ
  PREPARE_NUM_THREAD_BLOCK_GROUPS : ℤ
  SEND_NUM_THREAD_BLOCK_GROUPS : ℤ
  SEND_NUM_THREAD_BLOCKS_PER_GROUP : ℤ
  FWD_NUM_THREAD_BLOCK_GROUPS : ℤ
  FWD_NUM_THREAD_BLOCKS_PER_GROUP : ℤ
  RECV_NUM_THREAD_BLOCK_GROUPS : ℤ
  RECV_NUM_THREAD_BLOCKS_PER_GROUP : ℤ
  THREAD_BLOCK_SIZE : ℤ
  blockCount_lt : blockCount < 2 ^ 64
  CHUNK_SIZE_lt : CHUNK_SIZE < 2 ^ 31
  NUM_CHUNKS_lt : NUM_CHUNKS < 2 ^ 31

structure PersistConfig where
  numPrepareThreadBlocks : ℤ
  numPrepareThreads : ℤ
  numThreadBlocks : ℤ
  numThreads : ℤ
  numSendGroups : ℤ
  numSendWorkers : ℤ
  numFwdGroups : ℤ
  numFwdWorkers : ℤ
  numRecvGroups : ℤ
  numRecvWorkers : ℤ
  tmpChunkSize : ℤ
  tmpNumChunks : ℤ
  deriving DecidableEq, Repr

/-- A result, or a division by zero. -/
inductive InitFault
  | result (r : CommResult)
  | divisionByZero
  deriving DecidableEq, Repr

namespace InitArgs

variable (x : InitArgs)

/-- The size of a block, as the code multiplies it. -/
def blockSize : ℕ := x.blockCount * commTypeSize x.datatype % 2 ^ 64

def initConfig : Except InitFault PersistConfig :=
  let numThreadBlocks := x.SEND_NUM_THREAD_BLOCK_GROUPS * x.SEND_NUM_THREAD_BLOCKS_PER_GROUP +
    x.FWD_NUM_THREAD_BLOCK_GROUPS * x.FWD_NUM_THREAD_BLOCKS_PER_GROUP +
    x.RECV_NUM_THREAD_BLOCK_GROUPS * x.RECV_NUM_THREAD_BLOCKS_PER_GROUP
  if numThreadBlocks > CTRAN_ALGO_MAX_THREAD_BLOCKS then .error (.result .commInvalidArgument)
  else if x.CHUNK_SIZE ≤ 0 ∨ x.NUM_CHUNKS ≤ 0 then .error (.result .commInvalidUsage)
  else .ok {
    numPrepareThreadBlocks := x.PREPARE_NUM_THREAD_BLOCK_GROUPS
    numPrepareThreads := 5 * 32
    numThreadBlocks := numThreadBlocks
    numThreads := x.THREAD_BLOCK_SIZE
    numSendGroups := x.SEND_NUM_THREAD_BLOCK_GROUPS
    numSendWorkers := x.SEND_NUM_THREAD_BLOCKS_PER_GROUP
    numFwdGroups := x.FWD_NUM_THREAD_BLOCK_GROUPS
    numFwdWorkers := x.FWD_NUM_THREAD_BLOCKS_PER_GROUP
    numRecvGroups := x.RECV_NUM_THREAD_BLOCK_GROUPS
    numRecvWorkers := x.RECV_NUM_THREAD_BLOCKS_PER_GROUP
    tmpChunkSize := x.CHUNK_SIZE
    tmpNumChunks := x.NUM_CHUNKS }

def allToAllvDedupInit : Except InitFault PersistConfig :=
  if x.numRecvBuckets > MAX_NUM_RECV_BUCKETS then .error (.result .commInvalidArgument)
  else if x.blockSize = 0 then .error .divisionByZero
  else if toSize x.CHUNK_SIZE / x.blockSize > MAX_NUM_BLOCKS_PER_CHUNK then
    .error (.result .commInvalidArgument)
  else if x.blockCount ≤ 0 ∨ x.blockCount &&& (x.blockCount - 1) ≠ 0 then
    .error (.result .commInvalidArgument)
  else x.initConfig

end InitArgs

def sizeofFwdChkHdr : ℕ := 8

def sizeofLocalBucketsBitMap : ℕ := 4

def sizeofInt : ℕ := 4

/-- `ALIGN` to 16. -/
def align16 (x : ℕ) : ℕ := (x + 16 - 1) % 2 ^ 64 &&& (2 ^ 64 - 16)

def getChunkHeaderLen (numBlocks : ℕ) : ℕ :=
  align16 ((sizeofFwdChkHdr + numBlocks * (sizeofLocalBucketsBitMap + sizeofInt)) % 2 ^ 64)

/-- The offset of the block ids in a chunk. -/
def getTmpChunkBlockIds (numBlocks : ℕ) : ℕ :=
  sizeofFwdChkHdr + numBlocks * sizeofLocalBucketsBitMap

namespace PersistConfig

variable (p : PersistConfig)

def getTmpChunkIdx (step : ℕ) : ℕ := step &&& (p.tmpNumChunks.toNat - 1)

def getMaxNumBlocksPerChunk (blockSize : ℕ) : ℕ :=
  subSize (toSize p.tmpChunkSize) sizeofFwdChkHdr /
    ((sizeofLocalBucketsBitMap + sizeofInt + blockSize) % 2 ^ 64)

end PersistConfig

/-- A chunk has room for a block, and all that it has room for fits, the ids in front of the blocks.
Steps that are less than all chunks apart have different slots. -/
structure Fits (x : InitArgs) (p : PersistConfig) : Prop where
  noWrap : (sizeofFwdChkHdr : ℤ) ≤ p.tmpChunkSize
  pos : 1 ≤ p.getMaxNumBlocksPerChunk x.blockSize
  chunk : ((getChunkHeaderLen (p.getMaxNumBlocksPerChunk x.blockSize) +
    p.getMaxNumBlocksPerChunk x.blockSize * (x.blockCount * commTypeSize x.datatype) : ℕ) : ℤ) ≤
      p.tmpChunkSize
  ids : ∀ n ≤ p.getMaxNumBlocksPerChunk x.blockSize,
    getTmpChunkBlockIds n + n * sizeofInt ≤ getChunkHeaderLen n
  slots : ∀ i < 2 ^ 31, ∀ j < 2 ^ 31, i < j → ((j - i : ℕ) : ℤ) < p.tmpNumChunks →
    p.getTmpChunkIdx i ≠ p.getTmpChunkIdx j
  inRange : ∀ i < 2 ^ 31, (p.getTmpChunkIdx i : ℤ) < p.tmpNumChunks

/-! ### Arithmetic of `size_t` -/

theorem and_mask16 {y : ℕ} (hy : y < 2 ^ 64) : y &&& (2 ^ 64 - 16) = y / 16 * 16 := by
  have hmask : 2 ^ 64 - 16 = (2 ^ 60 - 1) <<< 4 := by decide
  have hround : y / 16 * 16 = (y >>> 4) <<< 4 := by
    rw [Nat.shiftRight_eq_div_pow, Nat.shiftLeft_eq]
  rw [hmask, hround]
  apply Nat.eq_of_testBit_eq
  intro i
  rw [Nat.testBit_and, Nat.testBit_shiftLeft, Nat.testBit_shiftLeft, Nat.testBit_two_pow_sub_one,
    Nat.testBit_shiftRight]
  by_cases hi : 4 ≤ i
  · rw [Nat.add_sub_cancel' hi]
    by_cases htop : i - 4 < 60
    · simp [hi, htop]
    · have hzero : y.testBit i = false := by
        apply Nat.testBit_lt_two_pow
        exact hy.trans_le (Nat.pow_le_pow_right Nat.two_pos (by omega))
      simp [hzero]
  · simp [hi]

theorem getChunkHeaderLen_eq {n : ℕ} (hn : n < 2 ^ 32) :
    getChunkHeaderLen n = 8 + 8 * n + 8 * ((n + 1) % 2) := by
  unfold getChunkHeaderLen align16 sizeofFwdChkHdr sizeofLocalBucketsBitMap sizeofInt
  rw [Nat.mod_eq_of_lt (a := 8 + n * (4 + 4)) (by omega), Nat.mod_eq_of_lt (by omega),
    and_mask16 (by omega)]
  omega

/-! ### What the checks leave -/

theorem commTypeSize_pow (t : CommDataType) : ∃ k, commTypeSize t = 2 ^ k := by
  cases t
  case commInt8 | commUint8 | commFloat8e4m3 | commFloat8e5m2 => exact ⟨0, rfl⟩
  case commFloat16 | commBfloat16 => exact ⟨1, rfl⟩
  case commInt32 | commUint32 | commFloat32 => exact ⟨2, rfl⟩
  case commInt64 | commUint64 | commFloat64 => exact ⟨3, rfl⟩

structure Accepted (x : InitArgs) (p : PersistConfig) : Prop where
  chunkSize : p.tmpChunkSize = x.CHUNK_SIZE
  numChunks : p.tmpNumChunks = x.NUM_CHUNKS
  chunkSize_pos : 0 < x.CHUNK_SIZE
  numChunks_pos : 0 < x.NUM_CHUNKS
  blockSize : x.blockSize = x.blockCount * commTypeSize x.datatype
  blockSize_le : x.blockSize ≤ 2 ^ 63

theorem accepted_of_init {x : InitArgs} {p : PersistConfig} (h : x.allToAllvDedupInit = .ok p) :
    Accepted x p := by
  unfold InitArgs.allToAllvDedupInit at h
  split at h
  · cases h
  split at h
  · cases h
  rename_i hsize
  split at h
  · cases h
  split at h
  · cases h
  rename_i hpow
  unfold InitArgs.initConfig at h
  simp only at h
  split at h
  · cases h
  split at h
  · cases h
  rename_i hpos
  rw [not_or] at hpow hpos
  cases h
  -- the size of a block is a power of two that is not lost
  have hblock : ∃ k < 64, x.blockCount * commTypeSize x.datatype = 2 ^ k := by
    have hcount := (Nat.and_sub_one_eq_zero_iff_isPowerOfTwo (by omega)).mp (not_not.mp hpow.2)
    rcases hcount with ⟨a, ha⟩
    rcases commTypeSize_pow x.datatype with ⟨t, ht⟩
    refine ⟨a + t, ?_, by rw [ha, ht, Nat.pow_add]⟩
    by_contra hlarge
    apply hsize
    unfold InitArgs.blockSize
    rw [ha, ht, ← Nat.pow_add]
    exact Nat.mod_eq_zero_of_dvd (Nat.pow_dvd_pow 2 (by omega))
  rcases hblock with ⟨k, hk, heq⟩
  have hle : 2 ^ k ≤ 2 ^ 63 := Nat.pow_le_pow_right Nat.two_pos (by omega)
  have hexact : x.blockSize = x.blockCount * commTypeSize x.datatype := by
    unfold InitArgs.blockSize
    rw [heq, Nat.mod_eq_of_lt (by omega)]
  constructor
  · rfl
  · rfl
  · omega
  · omega
  · exact hexact
  · omega

/-! ### When a chunk fits -/

variable {x : InitArgs} {p : PersistConfig}

theorem getMaxNumBlocksPerChunk_eq (h : Accepted x p) (hle : 8 ≤ p.tmpChunkSize) :
    p.getMaxNumBlocksPerChunk x.blockSize = (p.tmpChunkSize.toNat - 8) / (8 + x.blockSize) := by
  have hlt := x.CHUNK_SIZE_lt
  have hsize := h.chunkSize
  have hblock := h.blockSize_le
  unfold PersistConfig.getMaxNumBlocksPerChunk sizeofFwdChkHdr sizeofLocalBucketsBitMap sizeofInt
  rw [toSize_of_nonneg (by omega) (by omega), subSize_of_le (by omega) (by omega),
    Nat.mod_eq_of_lt (by omega)]

/-- The header is rounded up where the number of blocks is even. -/
theorem chunk_iff {size B m : ℕ} (hsize : size < 2 ^ 31) (hB : 8 ≤ size)
    (hm : m = (size - 8) / (8 + B)) :
    getChunkHeaderLen m + m * B ≤ size ↔ 8 ≤ (size - 8) % ((8 + B) * 2) := by
  have hsplit := Nat.div_add_mod (size - 8) (8 + B)
  have hrest := Nat.mod_lt (size - 8) (Nat.add_pos_left (by decide : 0 < 8) B)
  have hle : m ≤ size - 8 := hm ▸ Nat.div_le_self _ _
  rw [Nat.mod_mul, getChunkHeaderLen_eq (by omega)]
  rw [← hm] at hsplit ⊢
  have hexpand : (8 + B) * m = 8 * m + m * B := by ring
  rcases Nat.mod_two_eq_zero_or_one m with heven | hodd
  · have hnext : (m + 1) % 2 = 1 := by omega
    rw [heven, hnext]
    omega
  · have hnext : (m + 1) % 2 = 0 := by omega
    rw [hodd, hnext]
    omega

theorem pow_iff {n : ℤ} : (∃ k : ℕ, n = 2 ^ k) ↔ 0 < n ∧ ∃ k, n.toNat = 2 ^ k := by
  constructor
  · rintro ⟨k, rfl⟩
    refine ⟨Int.pow_pos (by decide), k, ?_⟩
    have hcast : ((2 : ℤ) ^ k) = ((2 ^ k : ℕ) : ℤ) := by push_cast; rfl
    rw [hcast, Int.toNat_natCast]
  · rintro ⟨hpos, k, hk⟩
    refine ⟨k, ?_⟩
    have hcast : n = (n.toNat : ℤ) := by omega
    rw [hcast, hk]
    push_cast
    rfl

theorem slots_iff (hpos : 0 < p.tmpNumChunks) (hlt : p.tmpNumChunks < 2 ^ 31) :
    (∀ i < 2 ^ 31, ∀ j < 2 ^ 31, i < j → ((j - i : ℕ) : ℤ) < p.tmpNumChunks →
      p.getTmpChunkIdx i ≠ p.getTmpChunkIdx j) ↔ ∃ k, p.tmpNumChunks.toNat = 2 ^ k := by
  unfold PersistConfig.getTmpChunkIdx
  constructor
  · intro hslots
    by_contra hpow
    rcases exists_shared_slot (by omega) hpow with ⟨i, j, hij, hj, hshared⟩
    exact hslots i (by omega) j (by omega) hij (by omega) hshared
  · intro hpow i _ j _ hij hnear
    exact slot_ne hpow hij (by omega)

/-- Every chunk fits its slot exactly where there is room for a header with a block, the rounding of
the header is made up for, and the mask of the slots is that of a power of two. -/
theorem fits_iff (h : x.allToAllvDedupInit = .ok p) : Fits x p ↔
    16 + x.blockCount * commTypeSize x.datatype ≤ x.CHUNK_SIZE ∧
    8 ≤ (x.CHUNK_SIZE - 8) % ((8 + x.blockCount * commTypeSize x.datatype) * 2) ∧
    ∃ k : ℕ, x.NUM_CHUNKS = 2 ^ k := by
  have hacc := accepted_of_init h
  have hsize := hacc.chunkSize
  have hnum := hacc.numChunks
  have hsizeLt := x.CHUNK_SIZE_lt
  have hsizePos := hacc.chunkSize_pos
  have hslots := slots_iff (p := p) (hnum ▸ hacc.numChunks_pos) (hnum ▸ x.NUM_CHUNKS_lt)
  rw [pow_iff, ← hnum]
  -- the rest of the chunk after its length and sender, as a natural number
  have hrest (hle : 8 ≤ p.tmpChunkSize) :
      (x.CHUNK_SIZE - 8) % ((8 + x.blockCount * commTypeSize x.datatype) * 2) =
        ((p.tmpChunkSize.toNat - 8) % ((8 + x.blockSize) * 2) : ℕ) := by
    have hcast : x.CHUNK_SIZE - 8 = ((p.tmpChunkSize.toNat - 8 : ℕ) : ℤ) := by omega
    rw [hcast, hacc.blockSize]
    push_cast
    rfl
  constructor
  · intro hfits
    have hle : 8 ≤ p.tmpChunkSize := hfits.noWrap
    have hmax := getMaxNumBlocksPerChunk_eq hacc hle
    have hpos := hfits.pos
    have hchunk := hfits.chunk
    rw [hmax, Nat.le_div_iff_mul_le (by omega)] at hpos
    rw [← hacc.blockSize] at hchunk
    have hroom := (chunk_iff (by omega) (by omega) hmax).mp (by omega)
    rw [hrest hle]
    refine ⟨?_, by omega, hnum ▸ hacc.numChunks_pos, hslots.mp hfits.slots⟩
    have hblock := hacc.blockSize
    omega
  · rintro ⟨hfit, hround, hpos, hpow⟩
    have hblock := hacc.blockSize
    have hle : 8 ≤ p.tmpChunkSize := by omega
    have hmax := getMaxNumBlocksPerChunk_eq hacc hle
    rw [hrest hle] at hround
    constructor
    case noWrap => exact hle
    case pos =>
      rw [hmax, Nat.le_div_iff_mul_le (by omega)]
      omega
    case chunk =>
      have hroom := (chunk_iff (by omega) (by omega) hmax).mpr (by omega)
      rw [← hblock]
      omega
    case ids =>
      intro n hn
      have hbound : p.getMaxNumBlocksPerChunk x.blockSize ≤ p.tmpChunkSize.toNat - 8 :=
        hmax ▸ Nat.div_le_self _ _
      rw [getChunkHeaderLen_eq (by omega)]
      unfold getTmpChunkBlockIds sizeofFwdChkHdr sizeofLocalBucketsBitMap sizeofInt
      omega
    case slots => exact hslots.mpr hpow
    case inRange =>
      intro i _
      have hslots_pos : 0 < p.tmpNumChunks.toNat := by omega
      have hslot := slot_lt hslots_pos i
      unfold PersistConfig.getTmpChunkIdx
      omega

/-- Blocks of `commBfloat16` with one thread block in each group. -/
def oneBlockEach (blockCount : ℕ) (chunkSize numChunks : ℤ) (hblock : blockCount < 2 ^ 64)
    (hsize : chunkSize < 2 ^ 31) (hnum : numChunks < 2 ^ 31) : InitArgs where
  blockCount := blockCount
  numRecvBuckets := 1
  datatype := .commBfloat16
  CHUNK_SIZE := chunkSize
  NUM_CHUNKS := numChunks
  PREPARE_NUM_THREAD_BLOCK_GROUPS := 1
  SEND_NUM_THREAD_BLOCK_GROUPS := 1
  SEND_NUM_THREAD_BLOCKS_PER_GROUP := 1
  FWD_NUM_THREAD_BLOCK_GROUPS := 1
  FWD_NUM_THREAD_BLOCKS_PER_GROUP := 1
  RECV_NUM_THREAD_BLOCK_GROUPS := 1
  RECV_NUM_THREAD_BLOCKS_PER_GROUP := 1
  THREAD_BLOCK_SIZE := 640
  blockCount_lt := hblock
  CHUNK_SIZE_lt := hsize
  NUM_CHUNKS_lt := hnum

def oneBlockEachConfig (chunkSize numChunks : ℤ) : PersistConfig where
  numPrepareThreadBlocks := 1
  numPrepareThreads := 160
  numThreadBlocks := 3
  numThreads := 640
  numSendGroups := 1
  numSendWorkers := 1
  numFwdGroups := 1
  numFwdWorkers := 1
  numRecvGroups := 1
  numRecvWorkers := 1
  tmpChunkSize := chunkSize
  tmpNumChunks := numChunks

/-- Blocks of 64 KiB in chunks of 16 MiB. -/
theorem fits_large : (oneBlockEach (2 ^ 15) 16777216 4 (by decide) (by decide) (by decide)
      ).allToAllvDedupInit = .ok (oneBlockEachConfig 16777216 4) ∧
    Fits (oneBlockEach (2 ^ 15) 16777216 4 (by decide) (by decide) (by decide))
      (oneBlockEachConfig 16777216 4) := by
  have hinit : (oneBlockEach (2 ^ 15) 16777216 4 (by decide) (by decide) (by decide)
      ).allToAllvDedupInit = .ok (oneBlockEachConfig 16777216 4) := by decide +kernel
  exact ⟨hinit, (fits_iff hinit).mpr ⟨by decide, by decide, 2, by decide⟩⟩

/-- A chunk of 28 bytes has room for two blocks of 2 bytes by the count, its header takes 32. -/
theorem not_fits_small : ∃ x p, x.allToAllvDedupInit = .ok p ∧ ¬ Fits x p := by
  refine ⟨oneBlockEach 1 28 4 (by decide) (by decide) (by decide), oneBlockEachConfig 28 4,
    by decide +kernel, ?_⟩
  intro hfits
  have hchunk := hfits.chunk
  revert hchunk
  decide +kernel

end AllToAllvDedup
end TorchComms
