import TorchComms.CommSpecs
import TorchComms.Foundation.Range

/-! # Remote puts and signals

Each function checks its displacements against the sizes of the window before it hands anything to
a copy, a kernel or the GPE thread. The checks compute in `size_t`.
-/
namespace TorchComms.Algos.PutSignal
open Foundation

structure RemWinInfo where
  addr : ℕ
  signalAddr : ℕ

/-- A window of which every rank has a data buffer and a signal buffer of 64-bit slots. -/
structure CtranWin where
  dataSize : ℕ
  signalSize : ℕ
  remWinInfo : ℕ → RemWinInfo
  winBaseSignalPtr : ℕ
  data_lt : ∀ r, (remWinInfo r).addr + dataSize < 2 ^ 64
  signals_lt : ∀ r, (remWinInfo r).signalAddr + 8 * signalSize < 2 ^ 64
  ownSignals_lt : winBaseSignalPtr + 8 * signalSize < 2 ^ 64

/-- What a function hands on: the bytes that it puts, and the slot that it sets or waits for. -/
structure Access where
  put : Option Range
  signalAddr : Option ℕ
deriving DecidableEq

/-- An offset in bytes, as `size_t`. -/
def nbytes (count elemSize : ℕ) : ℕ := count * elemSize % 2 ^ 64

/-- The address of a slot, in pointer arithmetic. -/
def slotAddr (base disp : ℕ) : ℕ := (base + 8 * disp) % 2 ^ 64

def checkDisplacementBounds (disp elemSize elemCount winSize : ℕ) : Except CommResult Unit :=
  let dispNbytes := nbytes disp elemSize
  let totalBytes := (dispNbytes + nbytes elemCount elemSize) % 2 ^ 64
  if winSize < totalBytes then throw .commInvalidArgument else pure ()

def checkSignalDisplacement (disp signalSize : ℕ) : Except CommResult Unit :=
  if signalSize < disp then throw .commInvalidArgument else pure ()

/-- What is put at a peer. A direct copy of nothing is left out. -/
def putAt (win : CtranWin) (count elemSize peer targetDisp : ℕ) (direct : Bool) : Option Range :=
  if direct ∧ count = 0 then none
  else some ⟨((win.remWinInfo peer).addr + nbytes targetDisp elemSize) % 2 ^ 64,
    nbytes count elemSize⟩

/-- The peer is notified without a slot. -/
def ctranPutSignal (win : CtranWin) (count elemSize peer targetDisp : ℕ) (direct : Bool) :
    Except CommResult Access :=
  let targetDispNbytes := nbytes targetDisp elemSize
  let countNbytes := nbytes count elemSize
  if win.dataSize < (targetDispNbytes + countNbytes) % 2 ^ 64 then throw .commInvalidArgument
  else pure ⟨putAt win count elemSize peer targetDisp direct, none⟩

def ctranPutSignal_v2 (win : CtranWin) (targetDisp count elemSize signalDisp peer : ℕ)
    (direct signal : Bool) : Except CommResult Access := do
  checkDisplacementBounds targetDisp elemSize count win.dataSize
  if signal then
    checkSignalDisplacement signalDisp win.signalSize
    return ⟨putAt win count elemSize peer targetDisp direct,
      some (slotAddr (win.remWinInfo peer).signalAddr signalDisp)⟩
  return ⟨putAt win count elemSize peer targetDisp direct, none⟩

/-- A function that needs a slot only. -/
def accessSlot (base signalSize signalDisp : ℕ) : Except CommResult Access := do
  checkSignalDisplacement signalDisp signalSize
  return ⟨none, some (slotAddr base signalDisp)⟩

def ctranWaitSignal_v2 (win : CtranWin) (signalDisp : ℕ) : Except CommResult Access :=
  accessSlot win.winBaseSignalPtr win.signalSize signalDisp

def ctranSignal (win : CtranWin) (signalDisp peer : ℕ) : Except CommResult Access :=
  accessSlot (win.remWinInfo peer).signalAddr win.signalSize signalDisp

/-! ## What the checks let pass -/

/-- The target of a put in the data buffer, without wrap-around. -/
def target (disp count elemSize : ℕ) : Range := ⟨disp * elemSize, count * elemSize⟩

variable {win : CtranWin} {disp targetDisp count elemSize signalDisp signalSize peer : ℕ}
  {direct signal : Bool}

theorem target_stop : (target disp count elemSize).stop = (disp + count) * elemSize :=
  (Nat.add_mul _ _ _).symm

theorem target_size_eq_zero (disp : ℕ) :
    (target disp count elemSize).size = 0 ↔ count = 0 ∨ elemSize = 0 :=
  Nat.mul_eq_zero

theorem stop_mod : (nbytes disp elemSize + nbytes count elemSize) % 2 ^ 64 =
    (target disp count elemSize).stop % 2 ^ 64 := by
  rw [nbytes, nbytes, ← Nat.add_mod, target_stop, Nat.add_mul]

theorem checkDisplacementBounds_ok :
    checkDisplacementBounds disp elemSize count win.dataSize = .ok () ↔
      (target disp count elemSize).stop % 2 ^ 64 ≤ win.dataSize := by
  rw [checkDisplacementBounds, stop_mod]
  split
  next h => exact iff_of_false nofun (Nat.not_le.mpr h)
  next h => exact iff_of_true rfl (Nat.not_lt.mp h)

theorem checkSignalDisplacement_ok :
    checkSignalDisplacement disp signalSize = .ok () ↔ disp ≤ signalSize := by
  rw [checkSignalDisplacement]
  split
  next h => exact iff_of_false nofun (Nat.not_le.mpr h)
  next h => exact iff_of_true rfl (Nat.not_lt.mp h)

theorem ctranPutSignal_accepts (peer : ℕ) (direct : Bool) :
    (∃ a, ctranPutSignal win count elemSize peer disp direct = .ok a) ↔
      (target disp count elemSize).stop % 2 ^ 64 ≤ win.dataSize := by
  rw [ctranPutSignal, stop_mod]
  split
  next h => exact iff_of_false (fun ⟨_, hok⟩ => nomatch hok) (Nat.not_le.mpr h)
  next h => exact iff_of_true ⟨_, rfl⟩ (Nat.not_lt.mp h)

variable {a : Access}

theorem ctranPutSignal_v2_checked
    (h : ctranPutSignal_v2 win disp count elemSize signalDisp peer direct signal = .ok a) :
    checkDisplacementBounds disp elemSize count win.dataSize = .ok () := by
  cases hcheck : checkDisplacementBounds disp elemSize count win.dataSize with
  | error e =>
    rw [ctranPutSignal_v2, hcheck] at h
    cases h
  | ok => rfl

theorem ctranPutSignal_v2_slot {s : ℕ}
    (h : ctranPutSignal_v2 win disp count elemSize signalDisp peer direct signal = .ok a)
    (hs : a.signalAddr = some s) :
    signalDisp ≤ win.signalSize ∧ s = slotAddr (win.remWinInfo peer).signalAddr signalDisp := by
  rw [ctranPutSignal_v2, ctranPutSignal_v2_checked h] at h
  cases signal with
  | false =>
    cases h
    cases hs
  | true =>
    cases hcheck : checkSignalDisplacement signalDisp win.signalSize with
    | error e =>
      simp only [hcheck] at h
      cases h
    | ok =>
      simp only [hcheck] at h
      cases h
      cases hs
      exact ⟨checkSignalDisplacement_ok.mp hcheck, rfl⟩

variable {base : ℕ}

theorem accessSlot_eq : accessSlot base signalSize signalDisp =
    if signalDisp ≤ signalSize then .ok ⟨none, some (slotAddr base signalDisp)⟩
    else .error .commInvalidArgument := by
  rw [accessSlot, checkSignalDisplacement]
  by_cases h : signalDisp ≤ signalSize
  · rw [if_neg (Nat.not_lt.mpr h), if_pos h]
    rfl
  · rw [if_pos (Nat.not_le.mp h), if_neg h]
    rfl

/-! ## Staying inside -/

/-- All eight bytes of the slot belong to the signal buffer. -/
def SlotInside (base signalSize addr : ℕ) : Prop := base ≤ addr ∧ addr + 8 ≤ base + 8 * signalSize

theorem slotInside_iff (hbase : base + 8 * signalSize < 2 ^ 64) (hdisp : signalDisp ≤ signalSize) :
    SlotInside base signalSize (slotAddr base signalDisp) ↔ signalDisp ≠ signalSize := by
  rw [SlotInside, slotAddr, Nat.mod_eq_of_lt (by omega)]
  omega

/-- What the functions accept with these arguments stays inside the buffers. -/
structure AccessesInside (win : CtranWin) (disp count elemSize signalDisp peer : ℕ)
    (direct signal : Bool) : Prop where
  putSignal : ∀ a, ctranPutSignal win count elemSize peer disp direct = .ok a →
    (target disp count elemSize).Below win.dataSize
  putSignal_v2 : ∀ a,
    ctranPutSignal_v2 win disp count elemSize signalDisp peer direct signal = .ok a →
      (target disp count elemSize).Below win.dataSize
  putSlot : ∀ a,
    ctranPutSignal_v2 win disp count elemSize signalDisp peer direct signal = .ok a →
      ∀ s, a.signalAddr = some s →
        SlotInside (win.remWinInfo peer).signalAddr win.signalSize s
  waitSlot : ∀ a, ctranWaitSignal_v2 win signalDisp = .ok a → ∀ s, a.signalAddr = some s →
    SlotInside win.winBaseSignalPtr win.signalSize s
  signalSlot : ∀ a, ctranSignal win signalDisp peer = .ok a → ∀ s, a.signalAddr = some s →
    SlotInside (win.remWinInfo peer).signalAddr win.signalSize s

theorem putSignal_inside_iff (peer : ℕ) (direct : Bool) :
    (∀ a, ctranPutSignal win count elemSize peer disp direct = .ok a →
      (target disp count elemSize).Below win.dataSize) ↔
    (count = 0 ∨ elemSize = 0) ∨ (disp + count) * elemSize < 2 ^ 64 ∨
      win.dataSize < (disp + count) * elemSize % 2 ^ 64 := by
  have hsize : win.dataSize < 2 ^ 64 := (Nat.le_add_left _ _).trans_lt (win.data_lt 0)
  rw [← target_size_eq_zero disp, ← target_stop, ← Range.checked_iff hsize,
    ← ctranPutSignal_accepts peer direct]
  exact exists_imp.symm

theorem accessSlot_inside_iff (hbase : base + 8 * signalSize < 2 ^ 64) :
    (∀ a, accessSlot base signalSize signalDisp = .ok a → ∀ s, a.signalAddr = some s →
      SlotInside base signalSize s) ↔ signalDisp ≠ signalSize := by
  rw [accessSlot_eq]
  by_cases hdisp : signalDisp ≤ signalSize
  · rw [if_pos hdisp, ← slotInside_iff hbase hdisp]
    constructor
    · intro h
      exact h _ rfl _ rfl
    · intro h a ha s hs
      cases ha
      cases hs
      exact h
  · rw [if_neg hdisp]
    exact iff_of_true (fun a ha => nomatch ha) (by omega)

theorem accessesInside_iff (win : CtranWin) (disp count elemSize signalDisp peer : ℕ)
    (direct signal : Bool) :
    AccessesInside win disp count elemSize signalDisp peer direct signal ↔
      ((count = 0 ∨ elemSize = 0) ∨ (disp + count) * elemSize < 2 ^ 64 ∨
        win.dataSize < (disp + count) * elemSize % 2 ^ 64) ∧ signalDisp ≠ win.signalSize := by
  constructor
  · intro h
    exact ⟨(putSignal_inside_iff peer direct).mp h.putSignal,
      (accessSlot_inside_iff win.ownSignals_lt).mp h.waitSlot⟩
  · intro h
    rcases h with ⟨hrange, hslot⟩
    have hput := (putSignal_inside_iff peer direct).mpr hrange
    constructor
    · exact hput
    · intro a ha
      have hpass := checkDisplacementBounds_ok.mp (ctranPutSignal_v2_checked ha)
      rcases (ctranPutSignal_accepts peer direct).mpr hpass with ⟨b, hb⟩
      exact hput b hb
    · intro a ha s hs
      have hsigned := ctranPutSignal_v2_slot ha hs
      rw [hsigned.2]
      exact (slotInside_iff (win.signals_lt peer) hsigned.1).mpr hslot
    · exact (accessSlot_inside_iff win.ownSignals_lt).mpr hslot
    · exact (accessSlot_inside_iff (win.signals_lt peer)).mpr hslot

/-- A window of four bytes and one slot for each rank. -/
def smallWin : CtranWin where
  dataSize := 4
  signalSize := 1
  remWinInfo := fun _ => ⟨4096, 4100⟩
  winBaseSignalPtr := 4100
  data_lt := fun _ => by decide
  signals_lt := fun _ => by decide
  ownSignals_lt := by decide

/-- Element number `2 ^ 62` of four bytes is put into a window of four bytes. -/
theorem not_accessesInside_wrapped : ¬ AccessesInside smallWin (2 ^ 62) 1 4 1 0 false false := by
  intro h
  have hbelow := h.putSignal _ rfl (2 ^ 64) (by decide) (by decide)
  exact absurd hbelow (by decide)

end TorchComms.Algos.PutSignal
