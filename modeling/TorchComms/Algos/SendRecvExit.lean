import TorchComms.Algos.SendRecvImpl

/-! # What a grouped send and receive leaves behind

A call that succeeds leaves nothing. One that fails, or is aborted, destroys its requests and forgets
its registrations as they are.
-/
namespace TorchComms.Algos.SendRecvImpl
open GroupSendRecv

variable {n : OpType → ℕ} {s s' : State} {es : List Event} {e : Event} {pc : Pc} {r r' : Req}
  {type : OpType} {i : ℕ}

/-! ## The requests and what the environment has done with them -/

/-- A backend or a kernel has accepted the request. -/
def Issued (es : List Event) (r : Req) : Prop :=
  .returned (.post r) .ok ∈ es ∨ .returned (.post r) .kernel ∈ es

structure Ledger (es : List Event) (s : State) : Prop where
  stored : ∀ r, r ∈ s.stored ↔ Issued es r
  held : ∀ r, r ∈ s.held ↔ .returned (.post r) .ok ∈ es ∧ .complete r ∉ es
  atKernel : ∀ r ∈ s.atKernel, r ∈ s.stored
  completed : ∀ r, .complete r ∈ es → r ∈ s.stored
  regs : s.tmpRegHdls = [] ↔ ∀ c hdl, .returned c (.localReg hdl) ∉ es

/-- Events that say nothing about requests and registrations. -/
def Event.Neutral : Event → Prop
  | .complete _ => False
  | .returned (.post _) a => a = .failed
  | .returned _ a => ∀ hdl, a ≠ .localReg hdl
  | _ => True

theorem Ledger.initial : Ledger [] {} := by
  constructor <;> simp [Issued]

section

variable (h : Ledger es s)
include h

theorem Ledger.held_sub (hr : r ∈ s.held) : r ∈ s.stored :=
  (h.stored r).mpr (.inl ((h.held r).mp hr).1)

theorem Ledger.neutral (he : e.Neutral) (hstored : s'.stored = s.stored)
    (hheld : s'.held = s.held) (hkernel : s'.atKernel = s.atKernel)
    (hregs : s'.tmpRegHdls = s.tmpRegHdls) : Ledger (es ++ [e]) s' := by
  have hok : ∀ r, e ≠ .returned (.post r) .ok := by
    rintro r rfl
    cases he
  have hker : ∀ r, e ≠ .returned (.post r) .kernel := by
    rintro r rfl
    cases he
  have hcomp : ∀ r, e ≠ .complete r := by
    rintro r rfl
    exact he
  have hreg : ∀ c hdl, e ≠ .returned c (.localReg hdl) := by
    rintro c hdl rfl
    cases c with
    | post r => cases he
    | _ => exact he hdl rfl
  constructor
  · intro r
    simp [hstored, h.stored, Issued, (hok r).symm, (hker r).symm]
  · intro r
    simp [hheld, h.held, (hok r).symm, (hcomp r).symm]
  · rw [hkernel, hstored]
    exact h.atKernel
  · intro r hr
    rw [hstored]
    exact h.completed r (by simpa [(hcomp r).symm] using hr)
  · rw [hregs, h.regs]
    simp [fun c hdl => (hreg c hdl).symm]

theorem Ledger.goto (he : e.Neutral) : Ledger (es ++ [e]) (s.goto pc) :=
  h.neutral he rfl rfl rfl rfl

theorem Ledger.useReq (he : e.Neutral) : Ledger (es ++ [e]) ((s.useReq r).goto pc) :=
  h.neutral he rfl rfl rfl rfl

theorem Ledger.complete (hr : ¬ s.Completed r) : Ledger (es ++ [.complete r]) (s.complete r) := by
  have hmem : r ∈ s.stored := by
    by_contra hno
    exact hr ⟨fun hh => hno (h.held_sub hh), fun hk => hno (h.atKernel r hk)⟩
  constructor
  · intro q
    simp [State.complete, h.stored, Issued]
  · intro q
    simp only [State.complete, List.mem_filter, decide_eq_true_eq, h.held, List.mem_append,
      List.mem_singleton, reduceCtorEq, or_false, Event.complete.injEq, not_or]
    exact and_assoc
  · intro q hq
    exact h.atKernel q (List.mem_of_mem_filter hq)
  · intro q hq
    rcases List.mem_append.mp hq with hq | hq
    · exact h.completed q hq
    · cases List.mem_singleton.mp hq
      exact hmem
  · simp [State.complete, h.regs]

theorem Ledger.postToBackend (hr : r ∉ s.stored) :
    Ledger (es ++ [.returned (.post r) .ok]) ((s.postToBackend r).goto pc) := by
  have hno : Event.complete r ∉ es := fun hc => hr (h.completed r hc)
  constructor
  · intro q
    simp only [State.goto, State.postToBackend, List.mem_cons, h.stored, Issued, List.mem_append,
      Event.returned.injEq, Call.post.injEq, and_true, reduceCtorEq, and_false,
      List.not_mem_nil, or_false]
    tauto
  · intro q
    simp only [State.goto, State.postToBackend, List.mem_cons, h.held, List.mem_append,
      Event.returned.injEq, Call.post.injEq, and_true, reduceCtorEq, List.not_mem_nil, or_false]
    constructor
    · rintro (rfl | ⟨hq, hc⟩)
      · exact ⟨.inr rfl, hno⟩
      · exact ⟨.inl hq, hc⟩
    · rintro ⟨hq | rfl, hc⟩
      · exact .inr ⟨hq, hc⟩
      · exact .inl rfl
  · intro q hq
    exact List.mem_cons_of_mem _ (h.atKernel q hq)
  · intro q hq
    exact List.mem_cons_of_mem _ (h.completed q (by simpa using hq))
  · simp [State.goto, State.postToBackend, h.regs]

theorem Ledger.postToKernel :
    Ledger (es ++ [.returned (.post r) .kernel]) ((s.postToKernel r).goto pc) := by
  constructor
  · intro q
    simp only [State.goto, State.postToKernel, List.mem_cons, h.stored, Issued, List.mem_append,
      Event.returned.injEq, Call.post.injEq, and_true, reduceCtorEq, and_false,
      List.not_mem_nil, or_false]
    tauto
  · intro q
    simp [State.goto, State.postToKernel, h.held]
  · intro q hq
    rcases List.mem_cons.mp hq with rfl | hq
    · exact List.mem_cons_self
    · exact List.mem_cons_of_mem _ (h.atKernel q hq)
  · intro q hq
    exact List.mem_cons_of_mem _ (h.completed q (by simpa using hq))
  · simp [State.goto, State.postToKernel, h.regs]

theorem Ledger.localReg {c : Call} {hdl : ℕ} :
    Ledger (es ++ [.returned c (.localReg hdl)])
      ({ s with tmpRegHdls := s.tmpRegHdls ++ [hdl] }.goto pc) := by
  constructor
  · intro q
    simp [State.goto, h.stored, Issued]
  · intro q
    simp [State.goto, h.held]
  · exact h.atKernel
  · intro q hq
    exact h.completed q (by simpa using hq)
  · constructor
    · intro hnil
      simp [State.goto] at hnil
    · intro hno
      exact absurd (List.mem_append_right es (List.mem_singleton_self _)) (hno c hdl)

end

/-! ## Where the function is and what it has done -/

def counts (sends recvs : ℕ) : OpType → ℕ
  | .SEND => sends
  | .RECV => recvs

theorem counts_eta : counts (n .SEND) (n .RECV) = n := by
  funext type
  cases type <;> rfl

/-- The control requests that have been made. -/
def ctrlCount (n : OpType → ℕ) : Pc → OpType → ℕ
  | .search .SEND _ => counts 0 0
  | .post .SEND i => counts i 0
  | .search .RECV _ => counts (n .SEND) 0
  | .post .RECV i => counts (n .SEND) i
  | .initNotify i => counts (n .SEND) (i + 1)
  | _ => n

/-- The requests that the last loops have seen complete. -/
def waitCount (n : OpType → ℕ) : Pc → OpType → ℕ
  | .wait .SEND i | .probe .SEND i => counts i 0
  | .waited .SEND i => counts (i + 1) 0
  | .wait .RECV i | .probe .RECV i => counts (n .SEND) i
  | .waited .RECV i | .waitNotify i | .notified i => counts (n .SEND) (i + 1)
  | .dereg _ => n
  | _ => counts 0 0

def deregCount : Pc → ℕ
  | .dereg i => i
  | _ => 0

/-- Before the loop that puts. -/
def Early : Pc → Prop
  | .search _ _ | .post _ _ | .initNotify _ => True
  | _ => False

/-- Behind the loop that puts. -/
def Late : Pc → Prop
  | .wait _ _ | .probe _ _ | .waited _ _ | .waitNotify _ | .notified _ | .dereg _ => True
  | _ => False

/-- The bounds of the loops. -/
def Within (n : OpType → ℕ) : Pc → Prop
  | .post type i | .wait type i => i ≤ n type
  | .initNotify i | .waitNotify i | .notified i => i < n .RECV
  | .probe type i | .waited type i => i < n type
  | _ => True

structure Placed (n : OpType → ℕ) (s : State) : Prop where
  ctrls : ∀ type i, .ctrl type i ∈ s.stored ↔ i < ctrlCount n s.pc type
  puts : ∀ i, .put i ∈ s.stored → ¬ Early s.pc ∧ i < n .SEND ∧ .ctrl .SEND i ∉ s.held
  fresh : ∀ i, s.pc = .iput i → i < n .SEND ∧ .put i ∉ s.stored ∧ .ctrl .SEND i ∉ s.held
  within : Within n s.pc
  allPut : Late s.pc → (∀ i < n .SEND, .put i ∈ s.stored) ∨ s.pc = .wait .SEND 0 ∧ s.aborted = true
  waits : ∀ type i, i < waitCount n s.pc type → waitReq type i ∉ s.held
  dereg : s.deregistered = s.tmpRegHdls.take (deregCount s.pc)
  nullUse : s.nullUse = false

theorem Placed.initial : Placed n {} := by
  have hzero : ∀ type, counts 0 0 type = 0 := by rintro (_ | _) <;> rfl
  constructor <;> simp [ctrlCount, waitCount, Late, Within, hzero]

theorem useReq_of_mem (h : r ∈ s.stored) : s.useReq r = s := by
  cases s
  simp_all [State.useReq]

theorem putCount_full (h : n .SEND ≤ s.putCount (n .SEND)) : ∀ i < n .SEND, .put i ∈ s.stored := by
  intro i hi
  have hlen : s.putCount (n .SEND) = (List.range (n .SEND)).length := by
    apply Nat.le_antisymm (List.length_filter_le _ _)
    rwa [List.length_range]
  have hall := List.length_filter_eq_length_iff.mp hlen i (List.mem_range.mpr hi)
  simpa using hall

theorem Placed.goto (h : Placed n s) (hctrls : ctrlCount n pc = ctrlCount n s.pc)
    (hearly : Early pc → Early s.pc) (hfresh : ∀ i, pc ≠ .iput i) (hwithin : Within n pc)
    (hall : Late pc → (∀ i < n .SEND, .put i ∈ s.stored) ∨ pc = .wait .SEND 0 ∧ s.aborted = true)
    (hwaits : ∀ type i, i < waitCount n pc type → waitReq type i ∉ s.held)
    (hdereg : deregCount pc = deregCount s.pc) : Placed n (s.goto pc) where
  ctrls type i := by
    change _ ↔ i < ctrlCount n pc type
    rw [hctrls]
    exact h.ctrls type i
  puts i hi := ⟨fun he => (h.puts i hi).1 (hearly he), (h.puts i hi).2⟩
  fresh i hi := absurd hi (hfresh i)
  within := hwithin
  allPut := hall
  waits := hwaits
  dereg := by
    change s.deregistered = s.tmpRegHdls.take (deregCount pc)
    rw [hdereg, h.dereg]
  nullUse := h.nullUse

theorem Placed.goto_early (h : Placed n s) (hctrls : ctrlCount n pc = ctrlCount n s.pc)
    (hearly : Early pc → Early s.pc) (hfresh : ∀ i, pc ≠ .iput i) (hwithin : Within n pc)
    (hlate : ¬ Late pc) (hwaits : waitCount n pc = counts 0 0)
    (hdereg : deregCount pc = deregCount s.pc) : Placed n (s.goto pc) := by
  apply h.goto hctrls hearly hfresh hwithin (fun hl => absurd hl hlate) _ hdereg
  intro type i hi
  rw [hwaits] at hi
  cases type <;> exact absurd hi (Nat.not_lt_zero i)

theorem Placed.environment (h : Placed n s) (he : Environment s e s') : Placed n s' := by
  cases he with
  | complete r _ =>
    have hsub : ∀ q, q ∉ s.held → q ∉ (s.complete r).held :=
      fun q hq hmem => hq (List.mem_of_mem_filter hmem)
    exact ⟨h.ctrls, fun i hi => ⟨(h.puts i hi).1, (h.puts i hi).2.1, hsub _ (h.puts i hi).2.2⟩,
      fun i hi => ⟨(h.fresh i hi).1, (h.fresh i hi).2.1, hsub _ (h.fresh i hi).2.2⟩, h.within,
      h.allPut, fun type i hi => hsub _ (h.waits type i hi), h.dereg, h.nullUse⟩
  | abort =>
    exact ⟨h.ctrls, h.puts, h.fresh, h.within,
      fun hl => (h.allPut hl).imp_right fun hw => ⟨hw.1, rfl⟩, h.waits, h.dereg, h.nullUse⟩

theorem Placed.all_of_ne (h : Placed n s) (hl : Late s.pc) (hne : s.pc ≠ .wait .SEND 0) :
    ∀ i < n .SEND, .put i ∈ s.stored :=
  (h.allPut hl).resolve_right fun hw => hne hw.1

theorem Placed.probed (h : Placed n s) (hpc : s.pc = .probe type i) :
    waitReq type i ∈ s.stored := by
  have hi : i < n type := by simpa [hpc, Within] using h.within
  cases type with
  | SEND => exact h.all_of_ne (by rw [hpc]; trivial) (by simp [hpc]) i hi
  | RECV => exact (h.ctrls .RECV i).mpr (by simpa [hpc, ctrlCount] using hi)

/-- What the function leaves behind when it returns. -/
structure Finished (s : State) : Prop where
  held : ∀ r ∈ s.stored, r ∉ s.held
  dereg : s.deregistered = s.tmpRegHdls
  nullUse : s.nullUse = false

theorem Placed.finished (h : Placed n s) (hpc : s.pc = .dereg i)
    (hi : s.tmpRegHdls.length ≤ i) : Finished (s.goto pc) where
  held r hr := by
    have hwaits : ∀ type i, i < n type → waitReq type i ∉ s.held := by
      intro type i hi
      exact h.waits type i (by simpa [hpc, waitCount] using hi)
    have hctrls : ∀ type i, .ctrl type i ∈ s.stored → i < n type := by
      intro type i hi
      simpa [hpc, ctrlCount] using (h.ctrls type i).mp hi
    cases r with
    | ctrl type i =>
      cases type with
      | SEND =>
        have hput := h.all_of_ne (by rw [hpc]; trivial) (by simp [hpc]) i (hctrls .SEND i hr)
        exact (h.puts i hput).2.2
      | RECV => exact hwaits .RECV i (hctrls .RECV i hr)
    | put i => exact hwaits .SEND i (h.puts i hr).2.1
  dereg := by
    change s.deregistered = s.tmpRegHdls
    rw [h.dereg, hpc]
    exact List.take_of_length_le hi
  nullUse := h.nullUse

theorem Placed.silent (h : Placed n s) (hs : Silent n s s') :
    (Placed n s' ∧ ∀ x, s'.pc ≠ .left x) ∨ s'.pc = .left .success ∧ Finished s' := by
  cases hs with
  | searched hpc hi =>
    next type i =>
    left
    refine ⟨h.goto_early ?_ ?_ ?_ ?_ ?_ ?_ ?_, by rintro x ⟨⟩⟩ <;>
      cases type <;> simp [hpc, afterSearch, ctrlCount, Early, Within, Late, waitCount, deregCount]
  | posted hpc hi =>
    next type i =>
    have heq : i = n type := Nat.le_antisymm (by simpa [hpc, Within] using h.within) hi
    left
    cases type with
    | SEND =>
      refine ⟨h.goto_early ?_ ?_ ?_ ?_ ?_ ?_ ?_, by rintro x ⟨⟩⟩ <;>
        simp [hpc, heq, afterPost, ctrlCount, Early, Within, Late, waitCount, deregCount]
    | RECV =>
      refine ⟨h.goto_early ?_ ?_ ?_ ?_ ?_ ?_ ?_, by rintro x ⟨⟩⟩ <;>
        simp [hpc, heq, afterPost, ctrlCount, Early, Within, Late, waitCount, deregCount, counts_eta]
  | allPut hpc hfull =>
    left
    refine ⟨h.goto ?_ ?_ ?_ ?_ (fun _ => .inl (putCount_full hfull)) ?_ ?_, by rintro x ⟨⟩⟩
    · simp [hpc, ctrlCount]
    · simp [Early]
    · simp
    · simp [Within]
    · rintro (_ | _) i hi <;> exact absurd hi (Nat.not_lt_zero i)
    · simp [hpc, deregCount]
  | alreadyPut hpc hi hput =>
    left
    refine ⟨h.goto_early ?_ ?_ ?_ ?_ ?_ ?_ ?_, by rintro x ⟨⟩⟩ <;>
      simp [hpc, ctrlCount, Early, Within, Late, waitCount, deregCount]
  | swept hpc hi =>
    left
    refine ⟨h.goto_early ?_ ?_ ?_ ?_ ?_ ?_ ?_, by rintro x ⟨⟩⟩ <;>
      simp [hpc, ctrlCount, Early, Within, Late, waitCount, deregCount]
  | allWaited hpc hi =>
    next type i =>
    have heq : i = n type := Nat.le_antisymm (by simpa [hpc, Within] using h.within) hi
    have hall : ∀ j < n .SEND, .put j ∈ s.stored := by
      rcases h.allPut (by rw [hpc]; trivial) with hall | ⟨hw, -⟩
      · exact hall
      · rw [hpc] at hw
        cases hw
        exact fun j hj => absurd hj (by omega)
    left
    have hw := h.waits
    rw [hpc] at hw
    cases type with
    | SEND =>
      refine ⟨h.goto ?_ ?_ ?_ ?_ (fun _ => .inl hall) ?_ ?_, by rintro x ⟨⟩⟩
      · simp [hpc, afterWait, ctrlCount]
      · simp [afterWait, Early]
      · simp [afterWait]
      · simp [afterWait, Within]
      · simpa [afterWait, waitCount, heq] using hw
      · simp [hpc, afterWait, deregCount]
    | RECV =>
      refine ⟨h.goto ?_ ?_ ?_ ?_ (fun _ => .inl hall) ?_ ?_, by rintro x ⟨⟩⟩
      · simp [hpc, afterWait, ctrlCount]
      · simp [afterWait, Early]
      · simp [afterWait]
      · simp [afterWait, Within]
      · simpa [afterWait, waitCount, heq, counts_eta] using hw
      · simp [hpc, afterWait, deregCount]
  | nullProbed hpc hno => exact absurd (h.probed hpc) hno
  | returns hpc hi => exact .inr ⟨rfl, h.finished hpc hi⟩

/-- What an abort leaves behind, apart from requests. -/
structure Thrown (n : OpType → ℕ) (s : State) : Prop where
  dereg : s.deregistered = []
  nullUse : s.nullUse = true ↔ 0 < n .SEND ∧ .put 0 ∉ s.stored

section

variable (h : Placed n s)
include h

theorem Placed.thrown (hall : ∀ i < n .SEND, .put i ∈ s.stored)
    (hdereg : deregCount s.pc = 0) : Thrown n (s.goto (.left .threw)) where
  dereg := by
    change s.deregistered = []
    rw [h.dereg, hdereg, List.take_zero]
  nullUse := by
    change s.nullUse = true ↔ _
    simp only [h.nullUse, Bool.false_eq_true, false_iff, not_and, not_not]
    exact hall 0

theorem Placed.thrown_wait (hpc : s.pc = .wait type i) (hi : i < n type) :
    Thrown n ((s.useReq (waitReq type i)).goto (.left .threw)) := by
  by_cases hmem : waitReq type i ∈ s.stored
  · rw [useReq_of_mem hmem]
    rcases h.allPut (by rw [hpc]; trivial) with hall | ⟨hw, -⟩
    · exact h.thrown hall (by rw [hpc]; rfl)
    · rw [hpc] at hw
      cases hw
      refine ⟨by rw [State.goto, h.dereg, hpc]; rfl, ?_⟩
      change s.nullUse = true ↔ 0 < n .SEND ∧ waitReq .SEND 0 ∉ s.stored
      simp [h.nullUse, hmem]
  · -- only the first put can be missing
    have hfirst : type = .SEND ∧ i = 0 := by
      cases type with
      | SEND =>
        by_contra hne
        exact hmem (h.all_of_ne (by rw [hpc]; trivial) (by simpa [hpc] using hne) i hi)
      | RECV => exact absurd ((h.ctrls .RECV i).mpr (by simpa [hpc, ctrlCount] using hi)) hmem
    obtain ⟨rfl, rfl⟩ := hfirst
    refine ⟨by change s.deregistered = []; rw [h.dereg, hpc]; rfl, ?_⟩
    change (s.nullUse || decide (waitReq .SEND 0 ∉ s.stored)) = true ↔
      0 < n .SEND ∧ waitReq .SEND 0 ∉ s.stored
    simp [h.nullUse, hi, hmem]

theorem Placed.tested {b : Bool} (hb : s.aborted = b) (ht : Tested n s b s') :
    (Placed n s' ∧ ∀ x, s'.pc ≠ .left x) ∨
      s'.pc = .left .threw ∧ Thrown n s' ∧ s'.stored = s.stored ∧ s'.held = s.held := by
  have hwaits := h.waits
  cases ht with
  | put hpc hlt =>
    left
    refine ⟨h.goto_early ?_ ?_ ?_ ?_ ?_ ?_ ?_, by rintro x ⟨⟩⟩ <;>
      simp [hpc, ctrlCount, Early, Within, Late, waitCount, deregCount]
  | putAborted hpc hlt =>
    left
    refine ⟨h.goto ?_ ?_ ?_ ?_ (fun _ => .inr ⟨rfl, hb⟩) ?_ ?_, by rintro x ⟨⟩⟩
    · simp [hpc, ctrlCount]
    · simp [Early]
    · simp
    · simp [Within]
    · rintro (_ | _) i hi <;> exact absurd hi (Nat.not_lt_zero i)
    · simp [hpc, deregCount]
  | wait hpc hi =>
    next type i =>
    have hall : ∀ j < n .SEND, .put j ∈ s.stored := by
      rcases h.allPut (by rw [hpc]; trivial) with hall | ⟨-, habort⟩
      · exact hall
      · rw [hb] at habort
        cases habort
    rw [hpc] at hwaits
    left
    refine ⟨h.goto ?_ ?_ ?_ ?_ (fun _ => .inl hall) ?_ ?_, by rintro x ⟨⟩⟩
    · simp [hpc, ctrlCount]
    · simp [Early]
    · simp
    · simpa [Within] using hi
    · cases type <;> simpa [waitCount] using hwaits
    · simp [hpc, deregCount]
  | waitAborted hpc hi => exact .inr ⟨rfl, h.thrown_wait hpc hi, rfl, rfl⟩
  | waited hpc =>
    next type i =>
    have hall := h.all_of_ne (by rw [hpc]; trivial) (by simp [hpc])
    have hi : i < n type := by simpa [hpc, Within] using h.within
    rw [hpc] at hwaits
    left
    refine ⟨h.goto ?_ ?_ ?_ ?_ (fun _ => .inl hall) ?_ ?_, by rintro x hx; cases type <;> cases hx⟩
    · cases type <;> simp [hpc, afterWaited, ctrlCount]
    · cases type <;> simp [afterWaited, Early]
    · cases type <;> simp [afterWaited]
    · cases type <;> exact hi
    · cases type <;> simpa [afterWaited, waitCount] using hwaits
    · cases type <;> simp [hpc, afterWaited, deregCount]
  | waitedAborted hpc =>
    have hall := h.all_of_ne (by rw [hpc]; trivial) (by simp [hpc])
    exact .inr ⟨rfl, h.thrown hall (by rw [hpc]; rfl), rfl, rfl⟩
  | notifyAborted hpc =>
    have hall := h.all_of_ne (by rw [hpc]; trivial) (by simp [hpc])
    exact .inr ⟨rfl, h.thrown hall (by rw [hpc]; rfl), rfl, rfl⟩
  | notified hpc =>
    next i =>
    have hall := h.all_of_ne (by rw [hpc]; trivial) (by simp [hpc])
    have hi : i < n .RECV := by simpa [hpc, Within] using h.within
    rw [hpc] at hwaits
    left
    refine ⟨h.goto ?_ ?_ ?_ ?_ (fun _ => .inl hall) ?_ ?_, by rintro x ⟨⟩⟩
    · simp [hpc, ctrlCount]
    · simp [Early]
    · simp
    · exact hi
    · simpa [waitCount] using hwaits
    · simp [hpc, deregCount]
  | notifiedAborted hpc =>
    have hall := h.all_of_ne (by rw [hpc]; trivial) (by simp [hpc])
    exact .inr ⟨rfl, h.thrown hall (by rw [hpc]; rfl), rfl, rfl⟩

variable {hdl : ℕ}

theorem Placed.localReg (hdereg : deregCount s.pc = 0) :
    Placed n { s with tmpRegHdls := s.tmpRegHdls ++ [hdl] } :=
  { h with
    dereg := by
      rw [h.dereg, hdereg]
      rfl }

theorem Placed.ctrl (hpc : s.pc = .post type i) (hi : i < n type) :
    Placed n ((s.postToBackend (.ctrl type i)).goto (afterPosted i type)) := by
  have hcount : ∀ type' j, j < ctrlCount n (afterPosted i type) type' ↔
      (type' = type ∧ j = i) ∨ j < ctrlCount n s.pc type' := by
    rw [hpc]
    intro type' j
    cases type <;> cases type' <;> simp [afterPosted, ctrlCount, counts] <;> omega
  have hput : ∀ j, .put j ∉ s.stored := fun j hj => (h.puts j hj).1 (by rw [hpc]; trivial)
  have hwait : waitCount n (afterPosted i type) = counts 0 0 := by cases type <;> rfl
  constructor
  · intro type' j
    change _ ↔ j < ctrlCount n (afterPosted i type) type'
    rw [hcount, ← h.ctrls]
    simp [State.goto, State.postToBackend]
  · intro j hj
    refine absurd ?_ (hput j)
    simpa [State.goto, State.postToBackend] using hj
  · intro j hj
    cases type <;> cases hj
  · cases type <;> exact hi
  · intro hl
    cases type <;> exact absurd hl id
  · intro type' j hj
    change j < waitCount n (afterPosted i type) type' at hj
    rw [hwait] at hj
    cases type' <;> exact absurd hj (Nat.not_lt_zero j)
  · change s.deregistered = s.tmpRegHdls.take (deregCount (afterPosted i type))
    rw [h.dereg, hpc]
    cases type <;> rfl
  · exact h.nullUse

theorem Placed.put (hpc : s.pc = .iput i) {held atKernel : List Req}
    (hheld : ∀ r ∈ held, r = .put i ∨ r ∈ s.held) :
    Placed n { s with
      stored := .put i :: s.stored, held := held, atKernel := atKernel, pc := .sweep (i + 1) } := by
  have hctrl : ∀ type j, .ctrl type j ∉ s.held → .ctrl type j ∉ held := by
    intro type j hno hmem
    rcases hheld _ hmem with heq | hmem
    · cases heq
    · exact hno hmem
  obtain ⟨hi, -, hci⟩ := h.fresh i hpc
  constructor
  · intro type j
    have hcs := h.ctrls type j
    rw [hpc] at hcs
    simpa [ctrlCount] using hcs
  · intro j hj
    rcases List.mem_cons.mp hj with heq | hj
    · cases heq
      exact ⟨id, hi, hctrl _ _ hci⟩
    · exact ⟨id, (h.puts j hj).2.1, hctrl _ _ (h.puts j hj).2.2⟩
  · rintro j ⟨⟩
  · trivial
  · exact fun hl => absurd hl id
  · rintro (_ | _) j hj <;> exact absurd hj (Nat.not_lt_zero j)
  · change s.deregistered = s.tmpRegHdls.take 0
    rw [h.dereg, hpc]
    rfl
  · exact h.nullUse

theorem Placed.ready (hpc : s.pc = .sweep i) (hi : i < n .SEND)
    (hput : .put i ∉ s.stored) (hc : s.Completed (.ctrl .SEND i)) :
    Placed n (s.goto (.iput i)) := by
  have hcs := h.ctrls
  have hdereg := h.dereg
  rw [hpc] at hcs hdereg
  refine ⟨hcs, fun j hj => ⟨id, (h.puts j hj).2⟩, ?_, trivial, fun hl => absurd hl id, ?_, hdereg,
    h.nullUse⟩
  · rintro j ⟨⟩
    exact ⟨hi, hput, hc.1⟩
  · rintro (_ | _) j hj <;> exact absurd hj (Nat.not_lt_zero j)

theorem Placed.completed (hpc : s.pc = .probe type i)
    (hc : waitReq type i ∉ s.held) : Placed n (s.goto (.waited type i)) := by
  have hall := h.all_of_ne (by rw [hpc]; trivial) (by simp [hpc])
  have hi : i < n type := by simpa [hpc, Within] using h.within
  refine h.goto ?_ ?_ ?_ ?_ (fun _ => .inl hall) ?_ ?_
  · simp [hpc, ctrlCount]
  · simp [Early]
  · simp
  · simpa [Within] using hi
  · intro type' j hj
    by_cases heq : type' = type ∧ j = i
    · obtain ⟨rfl, rfl⟩ := heq
      exact hc
    · apply h.waits type' j
      rw [hpc]
      cases type <;> cases type' <;> simp [waitCount, counts] at hj heq ⊢ <;> omega
  · simp [hpc, deregCount]

theorem Placed.goto_wait (hl : Late s.pc) (hne : s.pc ≠ .wait .SEND 0)
    (hctrls : ctrlCount n s.pc = n) (hpc : ctrlCount n pc = n) (hearly : ¬ Early pc)
    (hfresh : ∀ i, pc ≠ .iput i) (hwithin : Within n pc)
    (hwaits : waitCount n pc = waitCount n s.pc) (hdereg : deregCount pc = deregCount s.pc) :
    Placed n (s.goto pc) := by
  apply h.goto (hpc.trans hctrls.symm) (fun he => absurd he hearly) hfresh hwithin
    (fun _ => .inl (h.all_of_ne hl hne)) _ hdereg
  rw [hwaits]
  exact h.waits

theorem Placed.deregDynamic (hpc : s.pc = .dereg i) (hhdl : s.tmpRegHdls[i]? = some hdl) :
    Placed n ({ s with deregistered := s.deregistered ++ [hdl] }.goto (.dereg (i + 1))) := by
  have hall := h.all_of_ne (by rw [hpc]; trivial) (by simp [hpc])
  have hcs := h.ctrls
  have hwaits := h.waits
  rw [hpc] at hcs hwaits
  refine ⟨hcs, fun j hj => ⟨id, (h.puts j hj).2⟩, ?_, trivial, fun _ => .inl hall, hwaits, ?_,
    h.nullUse⟩
  · rintro j ⟨⟩
  · change s.deregistered ++ [hdl] = s.tmpRegHdls.take (i + 1)
    rw [h.dereg, hpc, List.take_add_one, hhdl]
    rfl

theorem Placed.succeeded {c : Call} {a : Answer} (hcall : callAt n s = some c)
    (hs : Succeeded s c a s') : Placed n s' ∧ ∀ x, s'.pc ≠ .left x := by
  cases hs with
  | cached hpc =>
    next type i =>
    refine ⟨h.goto_early ?_ ?_ ?_ ?_ ?_ ?_ ?_, by rintro x ⟨⟩⟩ <;>
      cases type <;> simp [hpc, ctrlCount, Early, Within, Late, waitCount, deregCount]
  | localReg hpc hdl =>
    next type i =>
    have h' : Placed n { s with tmpRegHdls := s.tmpRegHdls ++ [hdl] } :=
      h.localReg (by rw [hpc]; rfl)
    refine ⟨h'.goto_early ?_ ?_ ?_ ?_ ?_ ?_ ?_, by rintro x ⟨⟩⟩ <;>
      cases type <;> simp [hpc, ctrlCount, Early, Within, Late, waitCount, deregCount]
  | ctrl hpc =>
    next type i =>
    have hi : i < n type := by
      by_contra hno
      simp [callAt, hpc, hno] at hcall
    exact ⟨h.ctrl hpc hi, by rintro x hx; cases type <;> cases hx⟩
  | initNotify hpc =>
    next i =>
    have hi : i < n .RECV := by simpa [hpc, Within] using h.within
    refine ⟨h.goto_early ?_ ?_ ?_ hi ?_ ?_ ?_, by rintro x ⟨⟩⟩ <;>
      simp [hpc, ctrlCount, Early, Late, waitCount, deregCount]
  | ready hpc hc =>
    next i =>
    have hi : i < n .SEND ∧ .put i ∉ s.stored := by
      by_contra hno
      simp [callAt, hpc, hno] at hcall
    rw [useReq_of_mem ((h.ctrls .SEND i).mpr (by simpa [hpc, ctrlCount] using hi.1))]
    exact ⟨h.ready hpc hi.1 hi.2 hc, by rintro x ⟨⟩⟩
  | notReady hpc hc =>
    next i =>
    have hi : i < n .SEND ∧ .put i ∉ s.stored := by
      by_contra hno
      simp [callAt, hpc, hno] at hcall
    rw [useReq_of_mem ((h.ctrls .SEND i).mpr (by simpa [hpc, ctrlCount] using hi.1))]
    refine ⟨h.goto_early ?_ ?_ ?_ ?_ ?_ ?_ ?_, by rintro x ⟨⟩⟩ <;>
      simp [hpc, ctrlCount, Early, Within, Late, waitCount, deregCount]
  | put hpc => exact ⟨h.put hpc fun r hr => List.mem_cons.mp hr, by rintro x ⟨⟩⟩
  | putToKernel hpc => exact ⟨h.put hpc fun r hr => .inr hr, by rintro x ⟨⟩⟩
  | completed hpc hc =>
    rw [useReq_of_mem (h.probed hpc)]
    exact ⟨h.completed hpc hc.1, by rintro x ⟨⟩⟩
  | notCompleted hpc hc =>
    next type i =>
    have hi : i < n type := by simpa [hpc, Within] using h.within
    rw [useReq_of_mem (h.probed hpc)]
    refine ⟨h.goto_wait ?_ ?_ ?_ ?_ ?_ ?_ (Nat.le_of_lt hi) ?_ ?_, by rintro x ⟨⟩⟩ <;>
      cases type <;> simp [hpc, ctrlCount, Early, Late, waitCount, deregCount]
  | notified hpc =>
    next i =>
    have hi : i < n .RECV := by simpa [hpc, Within] using h.within
    refine ⟨h.goto_wait ?_ ?_ ?_ ?_ ?_ ?_ hi ?_ ?_, by rintro x ⟨⟩⟩ <;>
      simp [hpc, ctrlCount, Early, Late, waitCount, deregCount]
  | deregDynamic hpc =>
    next i hdl =>
    have hhdl : s.tmpRegHdls[i]? = some hdl := by simpa [callAt, hpc] using hcall
    exact ⟨h.deregDynamic hpc hhdl, by rintro x ⟨⟩⟩

end

/-! ## Runs -/

/-- A call fails, or the communicator is seen to be aborted. -/
def Fails (es : List Event) : Prop := (∃ c, .returned c .failed ∈ es) ∨ .testAbort true ∈ es

/-- Each temporary registration is gone, no backend points to a request that is destroyed, and no
request was used that was never made. -/
structure Clean (s : State) : Prop where
  held : ∀ r ∈ s.stored, r ∉ s.held
  dereg : s.deregistered.Perm s.tmpRegHdls
  nullUse : s.nullUse = false

/-- No registration was temporary, whatever a backend accepted has completed, and an abort was not
seen before the first put. -/
structure Calm (n : OpType → ℕ) (es : List Event) : Prop where
  regs : ∀ c hdl, .returned c (.localReg hdl) ∉ es
  completed : ∀ r, .returned (.post r) .ok ∈ es → .complete r ∈ es
  put : .testAbort true ∈ es → n .SEND = 0 ∨ Issued es (.put 0)

theorem not_step {x : Exit} (hpc : s.pc = .left x) : ¬ Step n s e s' := by
  intro hs
  cases hs with
  | environment hrun _ => exact hrun x hpc
  | silent hs => cases hs <;> simp_all
  | tested _ ht => cases ht <;> simp_all
  | succeeded hcall _ => simp [callAt, hpc] at hcall
  | failed hcall => simp [callAt, hpc] at hcall

inductive Stage (n : OpType → ℕ) (es : List Event) (s : State) : Prop
  | running (hrun : ∀ x, s.pc ≠ .left x) (hp : Placed n s) (hfail : ∀ c, .returned c .failed ∉ es)
      (habort : .testAbort true ∈ es → s.pc = .wait .SEND 0 ∧ s.aborted = true ∧ 0 < n .SEND)
  | success (hpc : s.pc = .left .success) (hf : Finished s) (hfail : ¬ Fails es)
  | failed (hpc : s.pc = .left .failed) (hfail : Fails es) (habort : .testAbort true ∉ es)
      (hdereg : s.deregistered.Perm s.tmpRegHdls ↔ s.tmpRegHdls = []) (hnull : s.nullUse = false)
  | threw (hpc : s.pc = .left .threw) (habort : .testAbort true ∈ es) (ht : Thrown n s)

theorem Stage.initial : Stage n [] {} := by
  apply Stage.running _ Placed.initial
  · simp
  · simp
  · rintro x ⟨⟩

theorem Placed.failed {c : Call} (h : Placed n s) (hcall : callAt n s = some c) :
    s.deregistered.Perm s.tmpRegHdls ↔ s.tmpRegHdls = [] := by
  constructor
  · intro hperm
    have hlen := hperm.length_eq
    rw [h.dereg, List.length_take] at hlen
    cases hpc : s.pc with
    | dereg i =>
      rw [hpc] at hlen
      simp only [callAt, hpc, Option.map_eq_some_iff] at hcall
      obtain ⟨hdl, hhdl, -⟩ := hcall
      have hlt := (List.getElem?_eq_some_iff.mp hhdl).1
      simp only [deregCount] at hlen
      omega
    | _ =>
      rw [hpc] at hlen
      exact List.length_eq_zero_iff.mp (by simpa [deregCount] using hlen.symm)
  · intro hnil
    rw [h.dereg, hnil, List.take_nil]

theorem Stage.step (h : Stage n es s) (hs : Step n s e s') : Stage n (es ++ [e]) s' := by
  cases h with
  | running hrun hp hfail habort =>
    cases hs with
    | environment _ he =>
      have hpc : s'.pc = s.pc := by cases he <;> rfl
      apply Stage.running (hpc ▸ hrun) (hp.environment he)
      · intro c hc
        cases he <;> exact hfail c (by simpa using hc)
      · intro ha
        rw [hpc]
        cases he with
        | complete r _ => exact habort (by simpa using ha)
        | abort =>
          obtain ⟨hw, -, hn⟩ := habort (by simpa using ha)
          exact ⟨hw, rfl, hn⟩
    | silent hs =>
      have hno : .testAbort true ∉ es := by
        intro ha
        obtain ⟨hpc, -, hn⟩ := habort ha
        cases hs <;> simp_all
      rcases hp.silent hs with ⟨hp', hrun'⟩ | ⟨hpc, hf⟩
      · refine .running hrun' hp' (fun c hc => hfail c (by simpa using hc)) fun ha => ?_
        exact absurd (by simpa using ha) hno
      · refine .success hpc hf ?_
        rintro (⟨c, hc⟩ | ha)
        · exact hfail c (by simpa using hc)
        · exact hno (by simpa using ha)
    | tested hb ht =>
      next b =>
      rcases hp.tested hb ht with ⟨hp', hrun'⟩ | ⟨hpc, hthrown, -⟩
      · refine .running hrun' hp' (fun c hc => hfail c (by simpa using hc)) fun ha => ?_
        cases ht with
        | putAborted hpc hlt => exact ⟨rfl, hb, by omega⟩
        | waitAborted | waitedAborted | notifyAborted | notifiedAborted =>
          exact absurd rfl (hrun' .threw)
        | _ =>
          obtain ⟨-, htrue, -⟩ := habort (by simpa using ha)
          rw [hb] at htrue
          cases htrue
      · refine .threw hpc ?_ hthrown
        cases ht with
        | waitAborted | waitedAborted | notifyAborted | notifiedAborted =>
          exact List.mem_append_right _ (List.mem_singleton_self _)
        | waited => next type i _ => cases type <;> cases hpc
        | _ => cases hpc
    | succeeded hcall hs =>
      have hno : .testAbort true ∉ es := by
        intro ha
        rw [callAt, (habort ha).1] at hcall
        cases hcall
      obtain ⟨hp', hrun'⟩ := hp.succeeded hcall hs
      refine .running hrun' hp' (fun c hc => ?_) fun ha => absurd (by simpa using ha) hno
      cases hs <;> exact hfail c (by simpa using hc)
    | failed hcall =>
      next c =>
      have hno : .testAbort true ∉ es := by
        intro ha
        rw [callAt, (habort ha).1] at hcall
        cases hcall
      refine .failed rfl (.inl ⟨c, List.mem_append_right _ (List.mem_singleton_self _)⟩) ?_
        (hp.failed hcall) hp.nullUse
      simpa using hno
  | success hpc _ _ => exact absurd hs (not_step hpc)
  | failed hpc _ _ _ _ => exact absurd hs (not_step hpc)
  | threw hpc _ _ => exact absurd hs (not_step hpc)

theorem Ledger.step (h : Ledger es s) (hstage : Stage n es s) (hs : Step n s e s') :
    Ledger (es ++ [e]) s' := by
  cases hs with
  | environment _ he =>
    cases he with
    | complete r hr => exact h.complete hr
    | abort => exact h.neutral trivial rfl rfl rfl rfl
  | silent hs =>
    cases hs with
    | nullProbed => exact h.useReq trivial
    | _ => exact h.goto trivial
  | tested _ ht =>
    cases ht with
    | waitAborted => exact h.useReq trivial
    | _ => exact h.goto trivial
  | failed hcall =>
    next c =>
    apply h.goto
    cases c with
    | post r => rfl
    | _ => rintro hdl ⟨⟩
  | succeeded hcall hs =>
    cases hs with
    | localReg => exact h.localReg
    | ctrl hpc =>
      next type i =>
      apply h.postToBackend
      cases hstage with
      | running _ hp _ _ =>
        rw [hp.ctrls, hpc]
        cases type <;> exact Nat.lt_irrefl i
      | success hpc' | failed hpc' | threw hpc' =>
        rw [hpc] at hpc'
        cases hpc'
    | put hpc =>
      next i =>
      apply h.postToBackend
      cases hstage with
      | running _ hp _ _ => exact (hp.fresh i hpc).2.1
      | success hpc' | failed hpc' | threw hpc' =>
        rw [hpc] at hpc'
        cases hpc'
    | putToKernel => exact h.postToKernel
    | ready | notReady | completed | notCompleted =>
      apply h.useReq
      rintro hdl ⟨⟩
    | cached | initNotify | notified =>
      apply h.goto
      rintro hdl ⟨⟩
    | deregDynamic =>
      refine h.neutral ?_ rfl rfl rfl rfl
      rintro hdl ⟨⟩

theorem SendRecvRuns.stage {opGroup : List OpElem} (h : SendRecvRuns opGroup es s) :
    Ledger es s ∧ Stage (numOps opGroup) es s := by
  have hinv := Foundation.Runs.invariant
    (fun es s => Ledger es s ∧ Stage (numOps opGroup) es s) [] h
    (fun past s e s' hi hs => ⟨hi.1.step hi.2 hs, hi.2.step hs⟩) ⟨.initial, .initial⟩
  rwa [List.nil_append] at hinv

theorem Ledger.held_iff (h : Ledger es s) :
    (∀ r ∈ s.stored, r ∉ s.held) ↔ ∀ r, .returned (.post r) .ok ∈ es → .complete r ∈ es := by
  constructor
  · intro hno r hr
    by_contra hc
    exact hno r ((h.stored r).mpr (.inl hr)) ((h.held r).mpr ⟨hr, hc⟩)
  · intro hall r _ hr
    obtain ⟨hok, hc⟩ := (h.held r).mp hr
    exact hc (hall r hok)

/-- Exactly the calls that succeed, and those that fail with nothing under way, clean up. -/
theorem sendRecvImpl_clean_iff {opGroup : List OpElem} {x : Exit}
    (h : SendRecvRuns opGroup es s) (hleft : s.pc = .left x) :
    Clean s ↔ (Fails es → Calm (numOps opGroup) es) := by
  obtain ⟨hl, hstage⟩ := h.stage
  cases hstage with
  | running hrun => exact absurd hleft (hrun x)
  | success _ hf hfail =>
    constructor
    · exact fun _ hf => absurd hf hfail
    · exact fun _ => ⟨hf.held, by rw [hf.dereg], hf.nullUse⟩
  | failed _ hfail habort hdereg hnull =>
    constructor
    · intro hc _
      exact ⟨hl.regs.mp (hdereg.mp hc.dereg), hl.held_iff.mp hc.held, fun ha => absurd ha habort⟩
    · intro hcalm
      obtain ⟨hregs, hcomp, -⟩ := hcalm hfail
      exact ⟨hl.held_iff.mpr hcomp, hdereg.mpr (hl.regs.mpr hregs), hnull⟩
  | threw _ habort ht =>
    have hput : s.nullUse = false ↔ numOps opGroup .SEND = 0 ∨ Issued es (.put 0) := by
      rw [← hl.stored, ← Bool.not_eq_true, ht.nullUse, not_and, not_not, Nat.pos_iff_ne_zero,
        or_iff_not_imp_left]
    have hdereg : s.deregistered.Perm s.tmpRegHdls ↔ s.tmpRegHdls = [] := by
      rw [ht.dereg, List.nil_perm]
    constructor
    · intro hc _
      exact ⟨hl.regs.mp (hdereg.mp hc.dereg), hl.held_iff.mp hc.held, fun _ => hput.mp hc.nullUse⟩
    · intro hcalm
      obtain ⟨hregs, hcomp, hfirst⟩ := hcalm (.inr habort)
      exact ⟨hl.held_iff.mpr hcomp, hdereg.mpr (hl.regs.mpr hregs), hput.mpr (hfirst habort)⟩

/-- One receive, from an empty state to the end. -/
def recvEvents : List Event :=
  [.goOn, .goOn, .returned (.searchRegHandle .RECV 0) (.localReg 7), .goOn,
    .returned (.post (.ctrl .RECV 0)) .ok, .returned (.initNotify 0) .ok, .goOn, .goOn, .goOn,
    .testAbort false, .complete (.ctrl .RECV 0), .returned (.test (.ctrl .RECV 0)) .ok,
    .testAbort false, .returned (.waitNotify 0) .ok, .testAbort false, .goOn,
    .returned (.deregDynamic 7) .ok, .goOn]

def recvOp : OpElem := ⟨.RECV, 0, 1, 0, 1, 1⟩

def recvLeft : State where
  pc := .left .success
  stored := [.ctrl .RECV 0]
  tmpRegHdls := [7]
  deregistered := [7]

theorem recv_runs : SendRecvRuns [recvOp] recvEvents recvLeft :=
  .cons (.silent (.searched rfl (by decide))) <|
  .cons (.silent (.posted rfl (by decide))) <|
  .cons (.succeeded rfl (.localReg rfl 7)) <|
  .cons (.silent (.searched rfl (by decide))) <|
  .cons (.succeeded rfl (.ctrl rfl)) <|
  .cons (.succeeded rfl (.initNotify rfl)) <|
  .cons (.silent (.posted rfl (by decide))) <|
  .cons (.silent (.allPut rfl (by decide))) <|
  .cons (.silent (.allWaited rfl (by decide))) <|
  .cons (.tested rfl (.wait rfl (by decide))) <|
  .cons (.environment (by rintro x ⟨⟩) (.complete (.ctrl .RECV 0) (by decide))) <|
  .cons (.succeeded rfl (@Succeeded.completed _ .RECV 0 rfl (by decide))) <|
  .cons (.tested rfl (@Tested.waited _ _ .RECV 0 rfl)) <|
  .cons (.succeeded rfl (.notified rfl)) <|
  .cons (.tested rfl (.notified rfl)) <|
  .cons (.silent (.allWaited rfl (by decide))) <|
  .cons (.succeeded rfl (.deregDynamic rfl)) <|
  .cons (.silent (.returns rfl (by decide))) <|
  .nil _

theorem sendRecvImpl_clean_recv :
    Clean recvLeft ↔ (Fails recvEvents → Calm (numOps [recvOp]) recvEvents) :=
  sendRecvImpl_clean_iff recv_runs rfl

def sendOp : OpElem := ⟨.SEND, 0, 1, 0, 1, 1⟩

/-- The communicator is aborted while a send waits for its control message. -/
theorem not_clean_aborted : ∃ es s, SendRecvRuns [sendOp] es s ∧ s.pc = .left .threw ∧ ¬ Clean s :=
  ⟨_, _,
    .cons (.succeeded rfl (.localReg rfl 7)) <|
    .cons (.silent (.searched rfl (by decide))) <|
    .cons (.succeeded rfl (.ctrl rfl)) <|
    .cons (.silent (.posted rfl (by decide))) <|
    .cons (.silent (.searched rfl (by decide))) <|
    .cons (.silent (.posted rfl (by decide))) <|
    .cons (.environment (by rintro x ⟨⟩) .abort) <|
    .cons (.tested rfl (.putAborted rfl (by decide))) <|
    .cons (.tested rfl (.waitAborted rfl (by decide))) <|
    .nil _,
    rfl, fun h => absurd h.nullUse (by decide)⟩

end TorchComms.Algos.SendRecvImpl
