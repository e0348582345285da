import TorchComms.Foundation.Range
import TorchComms.Foundation.RingSlot
import Mathlib.Logic.Relation

/-! # Temporary buffers cut from one allocation

An algorithm inserts its buffers by number, then has the memory of each type allocated as one base.
A buffer that was there when the base was allocated lies inside it.
-/
namespace TorchComms.Algos.Buffers

open Foundation Function

inductive MemType
  | kDevice
  | kHostPinned
  deriving DecidableEq, Repr

/-- `x & ~m` is what `x & m` leaves of `x`. -/
def align (size alignment : ℕ) : ℕ :=
  (size + alignment - 1) % 2 ^ 64 - ((size + alignment - 1) % 2 ^ 64 &&& (alignment - 1))

/-- The segments by their offsets and lengths. -/
structure TmpBufSegManager where
  segments : ℕ → Range := fun _ => ⟨0, 0⟩
  totalLen : ℕ := 0
  insertedIds_ : Finset ℕ := ∅

/-- The base of a type, with its segments. -/
structure MemBase extends TmpBufSegManager where
  ptr : ℕ := 0
  size : ℕ := 0

structure BufManager where
  memBases_ : MemType → MemBase := fun _ => {}
  isCommitted_ : Bool := false

variable (a maxNum : ℕ)

def TmpBufSegManager.insert (m : TmpBufSegManager) (id len_ : ℕ) : TmpBufSegManager × Bool :=
  if id ∈ m.insertedIds_ ∨ maxNum ≤ id then (m, false)
  else
    (⟨update m.segments id ⟨m.totalLen, align len_ a⟩, (m.totalLen + align len_ a) % 2 ^ 64,
      Insert.insert id m.insertedIds_⟩, true)

def commitBase (ptr : Option ℕ) (m : MemBase) : MemBase × Bool :=
  if m.totalLen = 0 then (m, true)
  else ({ m with size := m.totalLen, ptr := ptr.getD m.ptr }, ptr.isSome)

def releaseBase (released : Bool) (m : MemBase) : MemBase × Bool :=
  ({ m with ptr := if released then 0 else m.ptr }, released)

/-- The calls, with what allocation and deallocation answer. -/
inductive Call
  | insert (type : MemType) (id len : ℕ)
  | commit (ptr : MemType → Option ℕ)
  | release (released : MemType → Bool)

namespace BufManager

variable (b : BufManager)

/-- The loop over the bases, up to the first error. -/
def forBases (f : MemType → MemBase → MemBase × Bool) : BufManager × Bool :=
  let device := f .kDevice (b.memBases_ .kDevice)
  let host := f .kHostPinned (b.memBases_ .kHostPinned)
  ({ b with memBases_ := fun
      | .kDevice => device.1
      | .kHostPinned => if device.2 then host.1 else b.memBases_ .kHostPinned },
    device.2 && host.2)

def call : Call → BufManager × Bool
  | .insert type id len =>
    let base := b.memBases_ type
    let r := base.insert a maxNum id len
    ({ b with memBases_ := update b.memBases_ type ⟨r.1, base.ptr, base.size⟩ }, r.2)
  | .commit ptr =>
    let r := b.forBases fun type => commitBase (ptr type)
    ({ r.1 with isCommitted_ := r.2 || b.isCommitted_ }, r.2)
  | .release released =>
    let r := b.forBases fun type => releaseBase (released type)
    ({ r.1 with isCommitted_ := !r.2 && b.isCommitted_ }, r.2)

def assignBuf (type : MemType) (id : ℕ) : Option Range :=
  let base := b.memBases_ type
  if b.isCommitted_ ∧ id ∈ base.insertedIds_ then
    some ⟨base.ptr + (base.segments id).base, (base.segments id).size⟩
  else none

/-- Lengths and their sum are not so large that they wrap. -/
def Fits : Call → Prop
  | .insert type _ len =>
    len + a - 1 < 2 ^ 64 ∧ (b.memBases_ type).totalLen + align len a < 2 ^ 64
  | .commit _ | .release _ => True

/-- States behind further calls. -/
def Later : BufManager → BufManager → Prop :=
  Relation.ReflTransGen fun b c => ∃ x, b.Fits a x ∧ c = (b.call a maxNum x).1

end BufManager

/-! ### What a call does to a base -/

variable {a maxNum} {m m' : MemBase}

section Align

variable {len : ℕ} (ha : ∃ k, a = 2 ^ k)
include ha

theorem dvd_align : a ∣ align len a := by
  rw [align, slot_eq_mod ha]
  exact Nat.dvd_sub_mod _

theorem le_align (hfit : len + a - 1 < 2 ^ 64) : len ≤ align len a := by
  have hpos : 0 < a := by
    obtain ⟨k, rfl⟩ := ha
    exact Nat.two_pow_pos k
  rw [align, slot_eq_mod ha, Nat.mod_eq_of_lt hfit]
  have := Nat.mod_lt (len + a - 1) hpos
  omega

end Align

inductive Effect (a maxNum : ℕ) (m : MemBase) : MemBase → Prop
  | base {m' : MemBase} (hsame : m'.toTmpBufSegManager = m.toTmpBufSegManager)
    (hsize : m'.size = m.size ∨ m'.size = m.totalLen) : Effect a maxNum m m'
  | insert (id len : ℕ) (hfit : m.totalLen + align len a < 2 ^ 64) :
    Effect a maxNum m ⟨(m.insert a maxNum id len).1, m.ptr, m.size⟩

/-- The segments are aligned, apart and inside the length to be allocated. -/
structure Laid (a : ℕ) (m : MemBase) : Prop where
  size_le : m.size ≤ m.totalLen
  dvd : a ∣ m.totalLen
  aligned : ∀ i ∈ m.insertedIds_, a ∣ (m.segments i).base
  inside : ∀ i ∈ m.insertedIds_, (m.segments i).stop ≤ m.totalLen
  apart : ∀ i ∈ m.insertedIds_, ∀ j ∈ m.insertedIds_, i ≠ j → (m.segments i).Apart (m.segments j)

/-- What was inserted stays where it is, and what was allocated does not shrink. -/
structure Keeps (m m' : MemBase) : Prop where
  size_le : m.size ≤ m'.size
  segment : ∀ i ∈ m.insertedIds_, i ∈ m'.insertedIds_ ∧ m'.segments i = m.segments i

theorem Keeps.refl : Keeps m m := ⟨le_rfl, fun _ hi => ⟨hi, rfl⟩⟩

theorem Keeps.trans {m'' : MemBase} (h : Keeps m m') (h' : Keeps m' m'') : Keeps m m'' where
  size_le := h.size_le.trans h'.size_le
  segment i hi := by
    obtain ⟨hi', heq⟩ := h.segment i hi
    exact ⟨(h'.segment i hi').1, (h'.segment i hi').2.trans heq⟩

theorem Laid.insert (ha : ∃ k, a = 2 ^ k) (h : Laid a m) {id len : ℕ}
    (hfit : m.totalLen + align len a < 2 ^ 64) :
    Laid a ⟨(m.insert a maxNum id len).1, m.ptr, m.size⟩ ∧
      Keeps m ⟨(m.insert a maxNum id len).1, m.ptr, m.size⟩ := by
  unfold TmpBufSegManager.insert
  split
  · exact ⟨h, .refl⟩
  rename_i hnew
  have hseg : ∀ i ∈ m.insertedIds_,
      update m.segments id ⟨m.totalLen, align len a⟩ i = m.segments i :=
    fun i hi => update_of_ne (fun (heq : i = id) => hnew (.inl (heq ▸ hi))) ..
  have hfront : ∀ i ∈ m.insertedIds_, (m.segments i).Apart ⟨m.totalLen, align len a⟩ :=
    fun i hi => .inr (.inr (.inl (h.inside i hi)))
  refine ⟨?_, le_rfl, fun i hi => ⟨Finset.mem_insert_of_mem hi, hseg i hi⟩⟩
  constructor <;> simp only [Nat.mod_eq_of_lt hfit, Finset.forall_mem_insert, update_self]
  · exact h.size_le.trans (Nat.le_add_right ..)
  · exact Nat.dvd_add h.dvd (dvd_align ha)
  · exact ⟨h.dvd, fun i hi => by rw [hseg i hi]; exact h.aligned i hi⟩
  · exact ⟨le_rfl, fun i hi => by
      rw [hseg i hi]
      exact (h.inside i hi).trans (Nat.le_add_right ..)⟩
  · refine ⟨⟨fun heq => absurd rfl heq, fun j hj _ => ?_⟩,
      fun i hi => ⟨fun _ => ?_, fun j hj hij => ?_⟩⟩
    · rw [hseg j hj]
      exact (hfront j hj).symm
    · rw [hseg i hi]
      exact hfront i hi
    · rw [hseg i hi, hseg j hj]
      exact h.apart i hi j hj hij

theorem Effect.keeps (ha : ∃ k, a = 2 ^ k) (he : Effect a maxNum m m') (h : Laid a m) :
    Laid a m' ∧ Keeps m m' := by
  cases he with
  | base hsame hsize =>
    have hle : m.size ≤ m'.size ∧ m'.size ≤ m.totalLen := by
      have := h.size_le
      omega
    obtain ⟨m', ptr, size⟩ := m'
    cases hsame
    exact ⟨⟨hle.2, h.dvd, h.aligned, h.inside, h.apart⟩, hle.1, Keeps.refl.segment⟩
  | insert id len hfit => exact h.insert ha hfit

/-! ### Whole runs -/

namespace BufManager

variable {b c d : BufManager} {type : MemType} {f : MemType → MemBase → MemBase × Bool}
  {id len : ℕ}

theorem forBases_cases (type : MemType) :
    (b.forBases f).1.memBases_ type = (f type (b.memBases_ type)).1 ∨
      (b.forBases f).2 = false ∧ (b.forBases f).1.memBases_ type = b.memBases_ type := by
  unfold forBases
  cases type with
  | kDevice => exact .inl rfl
  | kHostPinned => cases hok : (f .kDevice (b.memBases_ .kDevice)).2 <;> simp [hok]

theorem forBases_effect (hf : ∀ t m, Effect a maxNum m (f t m).1) (type : MemType) :
    Effect a maxNum (b.memBases_ type) ((b.forBases f).1.memBases_ type) := by
  rcases forBases_cases (b := b) (f := f) type with heq | ⟨_, heq⟩ <;> rw [heq]
  · exact hf ..
  · exact .base rfl (.inl rfl)

theorem call_effect (x : Call) (hfit : b.Fits a x) (type : MemType) :
    Effect a maxNum (b.memBases_ type) ((b.call a maxNum x).1.memBases_ type) := by
  cases x with
  | insert t id len =>
    by_cases ht : type = t
    · subst ht
      simp only [call, update_self]
      exact .insert id len hfit.2
    · simp only [call, update_of_ne ht]
      exact .base rfl (.inl rfl)
  | commit ptr =>
    refine forBases_effect (f := fun t => commitBase (ptr t)) (fun t m => ?_) type
    unfold commitBase
    split
    · exact .base rfl (.inl rfl)
    · exact .base rfl (.inr rfl)
  | release released =>
    exact forBases_effect (f := fun t => releaseBase (released t)) (fun _ _ => .base rfl (.inl rfl))
      type

theorem Later.keeps (ha : ∃ k, a = 2 ^ k) (h : Later a maxNum b c)
    (hb : Laid a (b.memBases_ type)) :
    Laid a (c.memBases_ type) ∧ Keeps (b.memBases_ type) (c.memBases_ type) := by
  induction h with
  | refl => exact ⟨hb, .refl⟩
  | tail _ hstep ih =>
    obtain ⟨x, hfit, rfl⟩ := hstep
    obtain ⟨hlaid, hnew⟩ := (call_effect x hfit type).keeps ha ih.1
    exact ⟨hlaid, ih.2.trans hnew⟩

/-- An inserted buffer is as long as asked for. -/
theorem insert_ok (ha : ∃ k, a = 2 ^ k) (hfit : len + a - 1 < 2 ^ 64)
    (hok : (b.call a maxNum (.insert type id len)).2) :
    id ∈ ((b.call a maxNum (.insert type id len)).1.memBases_ type).insertedIds_ ∧
      len ≤ (((b.call a maxNum (.insert type id len)).1.memBases_ type).segments id).size := by
  simp only [call, update_self] at hok ⊢
  unfold TmpBufSegManager.insert at hok ⊢
  split at hok
  · cases hok
  · rename_i hnew
    simp only [if_neg hnew, update_self]
    exact ⟨Finset.mem_insert_self .., le_align ha hfit⟩

/-- A successful commit allocates all segments. -/
theorem commit_size {ptr : MemType → Option ℕ} (hok : (b.call a maxNum (.commit ptr)).2) :
    (b.memBases_ type).totalLen ≤ ((b.call a maxNum (.commit ptr)).1.memBases_ type).size := by
  have hcases := forBases_cases (b := b) (f := fun t => commitBase (ptr t)) type
  rcases hcases with heq | ⟨hfail, _⟩
  · change _ ≤ ((b.forBases fun t => commitBase (ptr t)).1.memBases_ type).size
    rw [heq]
    unfold commitBase
    split
    · rename_i hzero
      exact hzero ▸ Nat.zero_le _
    · exact le_rfl
  · exact absurd hok (ne_true_of_eq_false hfail)

/-- A buffer that has been inserted before a successful commit is assigned inside its base, aligned,
as long as asked for and apart from all other buffers, whatever calls come before, between and
after. -/
def Served (a maxNum : ℕ) : Prop :=
  ∀ b type id len, Later a maxNum {} b → b.Fits a (.insert type id len) →
    (b.call a maxNum (.insert type id len)).2 →
    ∀ c ptr, Later a maxNum (b.call a maxNum (.insert type id len)).1 c →
      (c.call a maxNum (.commit ptr)).2 →
      ∀ d, Later a maxNum (c.call a maxNum (.commit ptr)).1 d → ∀ r, d.assignBuf type id = some r →
        (⟨(d.memBases_ type).ptr, (d.memBases_ type).size⟩ : Range).Covers r ∧ len ≤ r.size ∧
          a ∣ r.base - (d.memBases_ type).ptr ∧
          ∀ id' r', id' ≠ id → d.assignBuf type id' = some r' → r.Apart r'

theorem assignBuf_eq_some {r : Range} (h : b.assignBuf type id = some r) :
    id ∈ (b.memBases_ type).insertedIds_ ∧
      r = ⟨(b.memBases_ type).ptr + ((b.memBases_ type).segments id).base,
        ((b.memBases_ type).segments id).size⟩ := by
  unfold assignBuf at h
  simp only [Option.ite_none_right_eq_some, Option.some.injEq] at h
  exact ⟨h.1.2, h.2.symm⟩

theorem laid_empty : Laid a {} :=
  ⟨le_rfl, Nat.dvd_zero _, nofun, nofun, nofun⟩

theorem served (ha : ∃ k, a = 2 ^ k) : Served a maxNum := by
  intro b type id len hb hfit hins c ptr hc hok d hd r hr
  obtain ⟨hid, hlen⟩ := insert_ok ha hfit.1 hins
  have hinsert : Effect a maxNum (b.memBases_ type) _ := call_effect (.insert _ id len) hfit type
  obtain ⟨hlaid, _⟩ := hinsert.keeps ha (hb.keeps ha laid_empty).1
  obtain ⟨hlaid, hbefore⟩ := hc.keeps ha hlaid
  obtain ⟨hid', hsame⟩ := hbefore.segment id hid
  have hstop := (hlaid.inside id hid').trans (commit_size hok)
  have heffect : Effect a maxNum (c.memBases_ type) _ := call_effect (.commit ptr) trivial type
  have hcommit := heffect.keeps ha hlaid
  obtain ⟨hlaid, hafter⟩ := hd.keeps ha hcommit.1
  have hsame' := ((hcommit.2.trans hafter).segment id hid').2
  obtain ⟨hmem, rfl⟩ := assignBuf_eq_some hr
  rw [← hsame, ← hsame'] at hlen
  rw [← hsame'] at hstop
  refine ⟨⟨Nat.le_add_right .., ?_⟩, hlen, ?_, ?_⟩
  · have hle := hstop.trans hafter.size_le
    unfold Range.stop at hle ⊢
    simp only
    omega
  · simp only [Nat.add_sub_cancel_left]
    exact hlaid.aligned id hmem
  · intro id' r' hne hr'
    obtain ⟨hmem', rfl⟩ := assignBuf_eq_some hr'
    have hapart := hlaid.apart id hmem id' hmem' hne.symm
    unfold Range.Apart Range.stop at hapart ⊢
    simp only
    omega

theorem served_page : (∃ k, 4096 = 2 ^ k) ∧ Served 4096 12 := ⟨⟨12, rfl⟩, served ⟨12, rfl⟩⟩

/-! ### Several ranks -/

def run (a maxNum : ℕ) (b : BufManager) (calls : List Call) : BufManager :=
  calls.foldl (fun b x => (b.call a maxNum x).1) b

def inserts (type : MemType) (calls : List Call) : List (ℕ × ℕ) :=
  calls.filterMap fun
    | .insert t id len => if t = type then some (id, len) else none
    | .commit _ | .release _ => none

/-- Ranks that insert the same buffers of a type have them at the same offsets, whatever they insert
of the other type and wherever they allocate and release. -/
def SameOffsets (a maxNum : ℕ) : Prop :=
  ∀ calls calls' type, inserts type calls = inserts type calls' → ∀ id r r',
    (run a maxNum {} calls).assignBuf type id = some r →
      (run a maxNum {} calls').assignBuf type id = some r' →
        r.size = r'.size ∧ r.base - ((run a maxNum {} calls).memBases_ type).ptr =
          r'.base - ((run a maxNum {} calls').memBases_ type).ptr

theorem forBases_segments (hf : ∀ t m, (f t m).1.toTmpBufSegManager = m.toTmpBufSegManager)
    (type : MemType) : ((b.forBases f).1.memBases_ type).toTmpBufSegManager =
      (b.memBases_ type).toTmpBufSegManager := by
  rcases forBases_cases (b := b) (f := f) type with heq | ⟨_, heq⟩ <;> rw [heq]
  exact hf ..

theorem run_segments (calls : List Call) (type : MemType) (b : BufManager) :
    ((run a maxNum b calls).memBases_ type).toTmpBufSegManager =
      (inserts type calls).foldl (fun m y => (m.insert a maxNum y.1 y.2).1)
        (b.memBases_ type).toTmpBufSegManager := by
  induction calls generalizing b with
  | nil => rfl
  | cons x calls ih =>
    refine (ih _).trans ?_
    cases x with
    | insert t id len =>
      by_cases ht : type = t
      · subst ht
        simp [inserts, call]
      · simp [inserts, call, ht, Ne.symm ht]
    | commit ptr =>
      refine congrArg (List.foldl _ · _)
        (forBases_segments (f := fun t => commitBase (ptr t)) ?_ type)
      intro t m
      unfold commitBase
      split <;> rfl
    | release released =>
      exact congrArg (List.foldl _ · _)
        (forBases_segments (f := fun t => releaseBase (released t)) (fun _ _ => rfl) type)

end BufManager

end TorchComms.Algos.Buffers
