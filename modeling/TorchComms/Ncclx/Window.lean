import TorchComms.Algos.PutSignal
import TorchComms.Foundation.MachineWords
import Mathlib.Algebra.BigOperators.Group.List.Basic

/-! # The window of a communicator

`put` and `getTensor` compare one product of a sum with the size of the window. The sum and the
product are `size_t`, and an `int64_t` offset is converted to it first.
-/
namespace TorchComms.Ncclx
open Foundation
open Algos.PutSignal (CtranWin Access ctranPutSignal ctranPutSignal_accepts target)

/-- The types that NCCL has and, by their size, the others. -/
inductive ScalarType
  | Float
  | Double
  | Half
  | BFloat16
  | Int
  | Long
  | Char
  | Byte
  | other (bytes : ℕ)
deriving DecidableEq

def ScalarType.elementSize : ScalarType → ℕ
  | Float | Int => 4
  | Double | Long => 8
  | Half | BFloat16 => 2
  | Char | Byte => 1
  | other bytes => bytes

inductive NcclDataType
  | ncclFloat32
  | ncclFloat64
  | ncclFloat16
  | ncclBfloat16
  | ncclInt32
  | ncclInt64
  | ncclInt8
  | ncclUint8
deriving DecidableEq

def NcclDataType.commTypeSize : NcclDataType → ℕ
  | ncclInt8 | ncclUint8 => 1
  | ncclFloat16 | ncclBfloat16 => 2
  | ncclInt32 | ncclFloat32 => 4
  | ncclInt64 | ncclFloat64 => 8

/-- How a call ends that does not return: it throws, `make_tensor` throws, or a `CHECK` ends the
process. -/
inductive Failure
  | runtime_error (what : String)
  | make_tensor
  | check
deriving DecidableEq

def getNcclDataType : ScalarType → Except Failure NcclDataType
  | .Float => pure .ncclFloat32
  | .Double => pure .ncclFloat64
  | .Half => pure .ncclFloat16
  | .BFloat16 => pure .ncclBfloat16
  | .Int => pure .ncclInt32
  | .Long => pure .ncclInt64
  | .Char => pure .ncclInt8
  | .Byte => pure .ncclUint8
  | .other _ => throw (.runtime_error "Unsupported tensor data type for NCCL")

structure Tensor where
  numel : ℕ
  scalar_type : ScalarType
  is_cuda : Bool
  device_index : ℤ

structure TorchCommWindowNCCLX where
  nccl_comm_ : Bool
  torch_comm_ : Bool
  win_ : Option CtranWin
  win_size_ : ℕ
  cpuBuf_ : Bool
  device_index : ℤ
  op_stream_ : Bool
  allocated : ∀ win, win_ = some win → win.dataSize = win_size_

namespace TorchCommWindowNCCLX

variable (w : TorchCommWindowNCCLX)

def checkCommAndThrow : Except Failure Unit :=
  if w.nccl_comm_ = false then throw (.runtime_error
    "[TorchCommWindowNCCLX]: NCCL communicator is not initialized, nccl_comm_ == nullptr")
  else if w.torch_comm_ = false then throw (.runtime_error
    "[TorchCommWindowNCCLX]: Torch communicator is not initialized, torch_comm_ == nullptr")
  else pure ()

def checkWindowAndThrow : Except Failure CtranWin :=
  match w.win_ with
  | none => throw (.runtime_error "[TorchCommWindowNCCLX]: NCCLX window is null")
  | some win => pure win

def checkRequestSizeAndThrow (input_size : ℕ) : Except Failure Unit :=
  if w.win_size_ < input_size then throw (.runtime_error
    ("[TorchCommWindowNCCLX]: Requested size (" ++ toString input_size ++
      " bytes) exceeds the window size (" ++ toString w.win_size_ ++ " bytes)"))
  else pure ()

def checkDeviceAndThrow (tensor : Tensor) : Except Failure Unit :=
  if w.cpuBuf_ = false ∧ tensor.is_cuda = true ∧ w.device_index ≠ tensor.device_index then
    throw (.runtime_error
      ("[TorchCommWindowNCCLX]: Device mismatch: window on device idx: " ++
        toString w.device_index ++ ", operated tensor on device idx: " ++
        toString tensor.device_index))
  else pure ()

def checkOpStreamAndThrow : Except Failure Unit :=
  if w.op_stream_ = false then throw (.runtime_error
    "[TorchCommWindowNCCLX]: RMA op stream is not initialized, op_stream_ == nullptr")
  else pure ()

/-- `CHECK_NOTNULL` -/
def checkNotNull {α : Type} : Option α → Except Failure α
  | none => throw .check
  | some a => pure a

/-- `CHECK_EQ(nccl_api_->winPut(...), ncclSuccess)`. The window is passed to `ctranPutSignal`. -/
def winPut (win : CtranWin) (count : ℕ) (datatype : NcclDataType) (dstRank targetDisp : ℕ)
    (direct : Bool) : Except Failure Access :=
  match ctranPutSignal win count datatype.commTypeSize dstRank targetDisp direct with
  | .error _ => throw .check
  | .ok a => pure a

def put (data : Tensor) (dstRank targetDisp : ℕ) (asyncOp direct : Bool) :
    Except Failure Access := do
  checkCommAndThrow w
  let req_size := (data.numel + targetDisp) % 2 ^ 64 * data.scalar_type.elementSize % 2 ^ 64
  checkRequestSizeAndThrow w req_size
  let win ← checkNotNull w.win_
  checkDeviceAndThrow w data
  (if asyncOp then checkOpStreamAndThrow w else pure ())
  let datatype ← getNcclDataType data.scalar_type
  winPut win data.numel datatype dstRank targetDisp direct

/-- A tensor over memory that belongs to others, its elements one after another. -/
structure Blob where
  data_ptr : ℕ
  sizes : List ℤ
  dtype : ScalarType

/-- What `make_tensor` takes as sizes. None of them is negative. -/
structure TensorMaker where
  accepts : List ℤ → Bool
  nonneg : ∀ sizes, accepts sizes = true → ∀ s ∈ sizes, 0 ≤ s

/-- `CHECK_EQ(nccl_api_->winSharedQuery(...), ncclSuccess); CHECK_NOTNULL(base_ptr)`. A rank whose
memory is not mapped has no address. -/
def winSharedQuery (win : CtranWin) (rank : ℕ) (mapped : Bool) : Except Failure ℕ :=
  let base_ptr := if mapped then (win.remWinInfo rank).addr else 0
  if base_ptr = 0 then throw .check else pure base_ptr

/-- `std::accumulate` of `std::multiplies<size_t>` -/
def accumulate (sizes : List ℤ) : ℕ := sizes.foldl (fun acc s => acc * toSize s % 2 ^ 64) 1

def getTensor (torch : TensorMaker) (rank : ℕ) (mapped : Bool) (sizes : List ℤ)
    (dtype : ScalarType) (storageOffset : ℤ) : Except Failure Blob := do
  checkCommAndThrow w
  let win ← checkWindowAndThrow w
  let base_ptr ← winSharedQuery win rank mapped
  let numel := accumulate sizes
  let element_size := dtype.elementSize
  let req_size := (numel + toSize storageOffset) % 2 ^ 64 * element_size % 2 ^ 64
  checkRequestSizeAndThrow w req_size
  let data_ptr := (base_ptr + toSize storageOffset * element_size % 2 ^ 64) % 2 ^ 64
  if torch.accepts sizes then return ⟨data_ptr, sizes, dtype⟩ else throw .make_tensor

/-! ## What returns -/

section Returning

variable {α β : Type} {x : Except Failure α} {f : α → Except Failure β}

def Returns (x : Except Failure α) : Prop := ∃ a, x = .ok a

theorem bind_ok {b : β} : x >>= f = .ok b ↔ ∃ a, x = .ok a ∧ f a = .ok b := by
  cases x with
  | error e => exact iff_of_false nofun fun ⟨_, ha, _⟩ => nomatch ha
  | ok a =>
    constructor
    · intro h
      exact ⟨a, rfl, h⟩
    · rintro ⟨a', ha, h⟩
      cases ha
      exact h

theorem returns_bind : Returns (x >>= f) ↔ ∃ a, x = .ok a ∧ Returns (f a) := by
  unfold Returns
  simp only [bind_ok]
  exact exists_comm.trans (exists_congr fun a => exists_and_left)

theorem returns_check {c : Except Failure Unit} {k : Unit → Except Failure β} :
    Returns (c >>= k) ↔ Returns c ∧ Returns (k ()) := by
  rw [returns_bind]
  constructor
  · rintro ⟨u, hu, h⟩
    exact ⟨⟨u, hu⟩, h⟩
  · rintro ⟨⟨u, hu⟩, h⟩
    exact ⟨u, hu, h⟩

theorem returns_ite {c : Prop} [Decidable c] {e : Failure} :
    Returns (if c then throw e else pure () : Except Failure Unit) ↔ ¬ c := by
  by_cases h : c
  · rw [if_pos h]
    exact iff_of_false (fun ⟨_, hb⟩ => nomatch hb) (not_not.mpr h)
  · rw [if_neg h]
    exact iff_of_true ⟨(), rfl⟩ h

end Returning

variable {w} {data : Tensor} {dstRank targetDisp rank size : ℕ} {asyncOp direct mapped : Bool}
  {torch : TensorMaker} {sizes : List ℤ} {dtype : ScalarType} {storageOffset : ℤ}

theorem returns_checkComm :
    Returns (checkCommAndThrow w) ↔ w.nccl_comm_ = true ∧ w.torch_comm_ = true := by
  unfold checkCommAndThrow
  cases w.nccl_comm_ with
  | false => exact iff_of_false (fun ⟨_, hb⟩ => nomatch hb) (fun h => nomatch h.1)
  | true =>
    cases w.torch_comm_ with
    | false => exact iff_of_false (fun ⟨_, hb⟩ => nomatch hb) (fun h => nomatch h.2)
    | true => exact iff_of_true ⟨(), rfl⟩ ⟨rfl, rfl⟩

theorem returns_checkRequestSize : Returns (checkRequestSizeAndThrow w size) ↔ size ≤ w.win_size_ :=
  returns_ite.trans Nat.not_lt

theorem returns_checkOpStream :
    Returns (if asyncOp then checkOpStreamAndThrow w else pure ()) ↔
      (asyncOp = true → w.op_stream_ = true) := by
  cases asyncOp with
  | false => exact iff_of_true ⟨(), rfl⟩ nofun
  | true =>
    rw [if_pos rfl, checkOpStreamAndThrow, returns_ite, Bool.not_eq_false]
    exact ⟨fun h _ => h, fun h => h rfl⟩

variable {t : NcclDataType} {base : ℕ}

theorem commTypeSize_eq (h : getNcclDataType dtype = .ok t) :
    t.commTypeSize = dtype.elementSize := by
  cases dtype <;> cases h <;> rfl

variable {win : CtranWin}

theorem returns_winPut {count : ℕ} :
    Returns (winPut win count t dstRank targetDisp direct) ↔
      (target targetDisp count t.commTypeSize).stop % 2 ^ 64 ≤ win.dataSize := by
  rw [← ctranPutSignal_accepts dstRank direct, winPut]
  cases h : ctranPutSignal win count t.commTypeSize dstRank targetDisp direct with
  | error e => exact iff_of_false (fun ⟨_, hb⟩ => nomatch hb) (fun ⟨_, hb⟩ => nomatch hb)
  | ok a => exact iff_of_true ⟨a, rfl⟩ ⟨a, rfl⟩

/-- What `put` checks apart from the size. -/
structure PutReady (w : TorchCommWindowNCCLX) (data : Tensor) (asyncOp : Bool) : Prop where
  comm : w.nccl_comm_ = true ∧ w.torch_comm_ = true
  win : ∃ win, w.win_ = some win
  device : ¬ (w.cpuBuf_ = false ∧ data.is_cuda = true ∧ w.device_index ≠ data.device_index)
  stream : asyncOp = true → w.op_stream_ = true
  dtype : Returns (getNcclDataType data.scalar_type)

/-- The bytes of the window that a put is for. -/
def putTarget (data : Tensor) (targetDisp : ℕ) : Range :=
  target targetDisp data.numel data.scalar_type.elementSize

theorem req_size_eq : (data.numel + targetDisp) % 2 ^ 64 * data.scalar_type.elementSize % 2 ^ 64 =
    (putTarget data targetDisp).stop % 2 ^ 64 := by
  rw [Nat.mod_mul_mod, putTarget, Algos.PutSignal.target_stop, Nat.add_comm]

theorem returns_put : Returns (w.put data dstRank targetDisp asyncOp direct) ↔
    PutReady w data asyncOp ∧ (putTarget data targetDisp).stop % 2 ^ 64 ≤ w.win_size_ := by
  rw [put, returns_check, returns_checkComm, returns_check, returns_checkRequestSize, req_size_eq]
  constructor
  · rintro ⟨hcomm, hsize, h⟩
    rcases returns_bind.mp h with ⟨win, hwin, h⟩
    rw [returns_check, returns_check, returns_checkOpStream, checkDeviceAndThrow, returns_ite] at h
    rcases h with ⟨hdevice, hstream, h⟩
    rcases returns_bind.mp h with ⟨t, ht, -⟩
    refine ⟨⟨hcomm, ⟨win, ?_⟩, hdevice, hstream, t, ht⟩, hsize⟩
    cases hw : w.win_ with
    | none =>
      rw [hw] at hwin
      cases hwin
    | some win' =>
      rw [hw] at hwin
      cases hwin
      rfl
  · rintro ⟨hready, hsize⟩
    rcases hready.win with ⟨win, hwin⟩
    rcases hready.dtype with ⟨t, ht⟩
    refine ⟨hready.comm, hsize, ?_⟩
    rw [hwin, returns_bind]
    refine ⟨win, rfl, ?_⟩
    rw [returns_check, returns_check, returns_checkOpStream, checkDeviceAndThrow, returns_ite]
    refine ⟨hready.device, hready.stream, ?_⟩
    rw [returns_bind]
    refine ⟨t, ht, ?_⟩
    rw [returns_winPut, commTypeSize_eq ht, w.allocated win hwin]
    exact hsize

/-! ## The elements of a tensor over the window -/

def Blob.numel (t : Blob) : ℕ := (t.sizes.map Int.toNat).prod

/-- The address of an element. -/
def Blob.element (t : Blob) (i : ℕ) : ℕ := (t.data_ptr + i * t.dtype.elementSize) % 2 ^ 64

/-- Every element lies in the buffer. -/
def Blob.Inside (t : Blob) (base size : ℕ) : Prop :=
  ∀ i < t.numel, base ≤ t.element i ∧ t.element i + t.dtype.elementSize ≤ base + size

/-- The bytes of the window that the tensor is for, from the offset as a machine word. -/
def view (sizes : List ℤ) (dtype : ScalarType) (storageOffset : ℤ) : Range :=
  ⟨toSize storageOffset * dtype.elementSize % 2 ^ 64,
    (sizes.map Int.toNat).prod * dtype.elementSize⟩

theorem foldl_mod (hsizes : ∀ s ∈ sizes, 0 ≤ s) (acc : ℕ) :
    sizes.foldl (fun acc s => acc * toSize s % 2 ^ 64) acc % 2 ^ 64 =
      acc * (sizes.map Int.toNat).prod % 2 ^ 64 := by
  induction sizes generalizing acc with
  | nil => simp
  | cons s sizes ih =>
    have hs : toSize s = s.toNat % 2 ^ 64 :=
      Int.toNat_emod (hsizes s (List.mem_cons_self ..)) (by decide)
    rw [List.foldl_cons, ih fun s hs => hsizes s (List.mem_cons_of_mem _ hs), List.map_cons,
      List.prod_cons, hs, Nat.mul_mod_mod, Nat.mod_mul_mod, Nat.mul_assoc]

theorem view_req_size (hsizes : ∀ s ∈ sizes, 0 ≤ s) :
    (accumulate sizes + toSize storageOffset) % 2 ^ 64 * dtype.elementSize % 2 ^ 64 =
      (view sizes dtype storageOffset).stop % 2 ^ 64 := by
  have hnumel := foldl_mod hsizes 1
  rw [Nat.one_mul] at hnumel
  rw [Nat.mod_mul_mod, Nat.mul_mod, Nat.add_mod, accumulate, hnumel, ← Nat.add_mod,
    ← Nat.mul_mod, Nat.add_mul, Nat.add_comm, view, Range.stop, Nat.mod_add_mod]

theorem inside_iff (hbase : base + size < 2 ^ 64) :
    Blob.Inside ⟨(base + toSize storageOffset * dtype.elementSize % 2 ^ 64) % 2 ^ 64, sizes, dtype⟩
      base size ↔ (view sizes dtype storageOffset).Below size := by
  unfold Blob.Inside Blob.element Blob.numel view
  simp only [Nat.mod_add_mod]
  apply Range.elements_iff (Nat.mod_lt _ (by decide)) hbase
  intro he
  rw [he, Nat.mul_zero, Nat.zero_mod]

/-- What `getTensor` checks apart from the size. -/
structure GetReady (w : TorchCommWindowNCCLX) (torch : TensorMaker) (rank : ℕ) (mapped : Bool)
    (sizes : List ℤ) : Prop where
  comm : w.nccl_comm_ = true ∧ w.torch_comm_ = true
  win : ∃ win, w.win_ = some win ∧ mapped = true ∧ (win.remWinInfo rank).addr ≠ 0
  torch : torch.accepts sizes = true

theorem winSharedQuery_ok :
    winSharedQuery win rank mapped = .ok base ↔
      mapped = true ∧ (win.remWinInfo rank).addr ≠ 0 ∧ (win.remWinInfo rank).addr = base := by
  rw [winSharedQuery]
  cases mapped with
  | false => exact iff_of_false nofun nofun
  | true =>
    by_cases h : (win.remWinInfo rank).addr = 0
    · simp only [h, if_true]
      exact iff_of_false nofun fun h => h.2.1 rfl
    · simp only [h, if_true, if_false]
      constructor
      · intro hok
        cases hok
        exact ⟨trivial, h, rfl⟩
      · rintro ⟨-, -, rfl⟩
        rfl

/-- The tensor that `getTensor` makes over the memory of the rank. -/
def made (win : CtranWin) (rank : ℕ) (sizes : List ℤ) (dtype : ScalarType) (storageOffset : ℤ) :
    Blob :=
  ⟨((win.remWinInfo rank).addr + toSize storageOffset * dtype.elementSize % 2 ^ 64) % 2 ^ 64,
    sizes, dtype⟩

theorem checkWindow_ok : checkWindowAndThrow w = .ok win ↔ w.win_ = some win := by
  rw [checkWindowAndThrow]
  cases w.win_ with
  | none => exact iff_of_false nofun nofun
  | some win' => exact ⟨fun h => by cases h; rfl, fun h => by cases h; rfl⟩

theorem getTensor_ok {t : Blob} :
    w.getTensor torch rank mapped sizes dtype storageOffset = .ok t ↔
      GetReady w torch rank mapped sizes ∧
        (view sizes dtype storageOffset).stop % 2 ^ 64 ≤ w.win_size_ ∧
        ∃ win, w.win_ = some win ∧ t = made win rank sizes dtype storageOffset := by
  unfold getTensor
  simp only [bind_ok, checkWindow_ok, winSharedQuery_ok]
  constructor
  · rintro ⟨u, hcomm, win, hwin, base, ⟨hmapped, haddr, rfl⟩, u', hsize, h⟩
    by_cases hmakes : torch.accepts sizes = true
    · rw [if_pos hmakes] at h
      cases h
      have hsize := returns_checkRequestSize.mp ⟨u', hsize⟩
      rw [view_req_size (torch.nonneg sizes hmakes)] at hsize
      exact ⟨⟨returns_checkComm.mp ⟨u, hcomm⟩, ⟨win, hwin, hmapped, haddr⟩, hmakes⟩, hsize,
        win, hwin, rfl⟩
    · rw [if_neg hmakes] at h
      cases h
  · rintro ⟨hready, hsize, win, hwin, rfl⟩
    rcases hready.win with ⟨win', hwin', hmapped, haddr⟩
    rcases returns_checkComm.mpr hready.comm with ⟨u, hcomm⟩
    rw [← view_req_size (torch.nonneg sizes hready.torch)] at hsize
    rcases returns_checkRequestSize.mpr hsize with ⟨u', hsize⟩
    cases hwin.symm.trans hwin'
    refine ⟨u, hcomm, win, hwin, _, ⟨hmapped, haddr, rfl⟩, u', hsize, ?_⟩
    rw [if_pos hready.torch]
    rfl

/-! ## Staying inside -/

/-- What `put` accepts stays inside the window. -/
def PutInside (w : TorchCommWindowNCCLX) (data : Tensor) (dstRank targetDisp : ℕ)
    (asyncOp direct : Bool) : Prop :=
  ∀ a, w.put data dstRank targetDisp asyncOp direct = .ok a →
    (putTarget data targetDisp).Below w.win_size_

/-- Every element of what `getTensor` returns lies inside the window of the rank. -/
def TensorInside (w : TorchCommWindowNCCLX) (torch : TensorMaker) (rank : ℕ) (mapped : Bool)
    (sizes : List ℤ) (dtype : ScalarType) (storageOffset : ℤ) : Prop :=
  ∀ t, w.getTensor torch rank mapped sizes dtype storageOffset = .ok t →
    ∀ win, w.win_ = some win → t.Inside (win.remWinInfo rank).addr w.win_size_

/-- The range is empty, or its end does not wrap, or it wraps to a value that is refused. -/
def EndsInside (r : Range) (size : ℕ) : Prop :=
  r.size = 0 ∨ r.stop < 2 ^ 64 ∨ size < r.stop % 2 ^ 64

theorem win_size_lt (hwin : w.win_ = some win) (r : ℕ) :
    (win.remWinInfo r).addr + w.win_size_ < 2 ^ 64 :=
  w.allocated win hwin ▸ win.data_lt r

theorem putInside_iff :
    PutInside w data dstRank targetDisp asyncOp direct ↔
      ¬ PutReady w data asyncOp ∨ EndsInside (putTarget data targetDisp) w.win_size_ := by
  unfold PutInside EndsInside
  rw [← exists_imp]
  change (Returns _ → _) ↔ _
  rw [returns_put]
  by_cases hready : PutReady w data asyncOp
  · rcases hready.win with ⟨win, hwin⟩
    have hsize := (Nat.le_add_left _ _).trans_lt (win_size_lt hwin 0)
    rw [and_iff_right hready, Range.checked_iff hsize, or_iff_right (not_not.mpr hready)]
  · exact iff_of_true (fun h => absurd h.1 hready) (.inl hready)

theorem tensorInside_iff :
    TensorInside w torch rank mapped sizes dtype storageOffset ↔
      ¬ GetReady w torch rank mapped sizes ∨
        EndsInside (view sizes dtype storageOffset) w.win_size_ := by
  unfold TensorInside EndsInside
  by_cases hready : GetReady w torch rank mapped sizes
  · rcases hready.win with ⟨win, hwin, -⟩
    have hbase := win_size_lt hwin rank
    rw [or_iff_right (not_not.mpr hready),
      ← Range.checked_iff ((Nat.le_add_left _ _).trans_lt hbase), ← inside_iff hbase]
    constructor
    · intro h hpass
      exact h _ (getTensor_ok.mpr ⟨hready, hpass, win, hwin, rfl⟩) win hwin
    · intro h t ht win' hwin'
      rcases getTensor_ok.mp ht with ⟨-, hpass, win'', hwin'', rfl⟩
      cases hwin.symm.trans hwin'
      cases hwin.symm.trans hwin''
      exact h hpass
  · exact iff_of_true (fun t ht => absurd (getTensor_ok.mp ht).1 hready) (.inl hready)

/-- A CPU window of four bytes. -/
def smallWindow : TorchCommWindowNCCLX where
  nccl_comm_ := true
  torch_comm_ := true
  win_ := some Algos.PutSignal.smallWin
  win_size_ := 4
  cpuBuf_ := true
  device_index := 0
  op_stream_ := true
  allocated := fun win hwin => by cases hwin; rfl

/-- Sizes whose product is an `int64_t` make a tensor. -/
def anyTensor : TensorMaker where
  accepts sizes := sizes.all (0 ≤ ·) && (sizes.map Int.toNat).prod < 2 ^ 63
  nonneg := by
    intro sizes h s hs
    rw [Bool.and_eq_true, List.all_eq_true] at h
    exact of_decide_eq_true (h.1 s hs)

end TorchCommWindowNCCLX
end TorchComms.Ncclx
