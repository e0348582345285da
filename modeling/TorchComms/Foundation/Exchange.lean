import TorchComms.Foundation.Range
import TorchComms.Foundation.Run

/-! # Parties that put into each other's memory

Each party runs a program. It tells a peer that its puts may come and waits for such a word, puts
ranges of its memory to the same place of a peer's memory, some with a notification behind them, and
waits for its own puts and for notifications. The puts to a peer arrive in the order in which they
are issued, and carry what is there when they arrive.
-/
namespace TorchComms.Foundation

/-- A range that is put, and whether a notification goes with it. -/
structure Parcel where
  range : Range
  notify : Bool
  deriving DecidableEq, Repr

def Parcel.Covers (m : Parcel) (x : ℕ) : Prop := m.range.base ≤ x ∧ x < m.range.stop

instance (m : Parcel) (x : ℕ) : Decidable (m.Covers x) := inferInstanceAs (Decidable (_ ∧ _))

/-- `waitPut p k` waits until the first `k` puts to `p` are done. -/
inductive Action
  | sendCtrl (peer : ℕ)
  | recvCtrl (peer : ℕ)
  | put (peer : ℕ) (parcel : Parcel)
  | waitPut (peer count : ℕ)
  | waitNotify (peer : ℕ)
  deriving DecidableEq, Repr

/-- What the parties have done, how many of the puts from one to another have arrived, and the
memories. -/
structure Exchange (β : Type) where
  done : ℕ → List Action
  delivered : ℕ → ℕ → ℕ
  memory : ℕ → ℕ → β

namespace Exchange

def ctrlTo (p : ℕ) (l : List Action) : ℕ := l.count (.sendCtrl p)

def ctrlFrom (p : ℕ) (l : List Action) : ℕ := l.count (.recvCtrl p)

def noticesFrom (p : ℕ) (l : List Action) : ℕ := l.count (.waitNotify p)

def parcelTo (p : ℕ) : Action → Option Parcel
  | .put q m => if q = p then some m else none
  | .sendCtrl _ | .recvCtrl _ | .waitPut .. | .waitNotify _ => none

def putsTo (p : ℕ) (l : List Action) : List Parcel := l.filterMap (parcelTo p)

def notices (ms : List Parcel) : ℕ := ms.countP (·.notify)

variable {β : Type}

def initial (memory : ℕ → ℕ → β) : Exchange β where
  done := fun _ => []
  delivered := fun _ _ => 0
  memory := memory

/-- Whether a party may go on with an action. -/
def Enabled (s : Exchange β) (r : ℕ) : Action → Prop
  | .sendCtrl _ => True
  | .recvCtrl p => ctrlFrom p (s.done r) < ctrlTo r (s.done p)
  | .put .. => True
  | .waitPut p k => k ≤ s.delivered r p
  | .waitNotify p =>
    noticesFrom p (s.done r) < notices ((putsTo r (s.done p)).take (s.delivered p r))

def act (s : Exchange β) (r : ℕ) (a : Action) : Exchange β :=
  { s with done := Function.update s.done r (s.done r ++ [a]) }

/-- A put of `q` arrives at `r`. -/
def deliver (s : Exchange β) (q r : ℕ) (m : Parcel) : Exchange β :=
  { s with
    delivered := Function.update s.delivered q
      (Function.update (s.delivered q) r (s.delivered q r + 1))
    memory := Function.update s.memory r fun x =>
      if m.Covers x then s.memory q x else s.memory r x }

variable (n : ℕ) (prog : ℕ → List Action)

/-- The parties go on with their programs, and puts arrive. -/
inductive Step : Exchange β → Exchange β → Prop
  | act {s : Exchange β} {r : ℕ} {a : Action} (hr : r < n) (hnext : s.done r ++ [a] <+: prog r)
      (henabled : s.Enabled r a) : Step s (s.act r a)
  | deliver {s : Exchange β} {q r : ℕ} {m : Parcel} (hq : q < n) (hr : r < n)
      (h : (putsTo r (s.done q))[s.delivered q r]? = some m) : Step s (s.deliver q r m)

def Reachable (memory : ℕ → ℕ → β) : Exchange β → Prop :=
  Relation.ReflTransGen (Step n prog) (initial memory)

def AllDone (s : Exchange β) : Prop := ∀ r < n, s.done r = prog r

variable {n prog} {s : Exchange β} {memory : ℕ → ℕ → β}

variable {ranges : List Range} {l l' : List Action} {j : ℕ}

theorem putsTo_mono (p : ℕ) (h : l <+: l') : putsTo p l <+: putsTo p l' :=
  h.filterMap _

theorem notices_take_le (ms : List Parcel) {i j : ℕ} (h : i ≤ j) :
    notices (ms.take i) ≤ notices (ms.take j) := (List.take_prefix_take_left h).countP_le

variable {p k : ℕ}

theorem take_putsTo (h : l <+: l') (hk : k ≤ (putsTo p l).length) :
    (putsTo p l').take k = (putsTo p l).take k := by
  obtain ⟨rest, heq⟩ := putsTo_mono p h
  rw [← heq, List.take_append_of_le_length hk]

variable {m : Parcel}

theorem getElem?_putsTo (h : l <+: l')
    (hk : (putsTo p l)[k]? = some m) : (putsTo p l')[k]? = some m := by
  obtain ⟨rest, heq⟩ := putsTo_mono p h
  rw [← heq, List.getElem?_append_left (List.getElem?_eq_some_iff.mp hk).1, hk]

theorem split_of_putsTo {l : List Action} {p : ℕ} (h : m ∈ putsTo p l) :
    ∃ before, before ++ [.put p m] <+: l := by
  obtain ⟨a, ha, hm⟩ := List.mem_filterMap.mp h
  cases a with
  | put q m' =>
    simp only [parcelTo, Option.ite_none_right_eq_some, Option.some.injEq] at hm
    obtain ⟨rfl, rfl⟩ := hm
    obtain ⟨before, after, hl⟩ := List.append_of_mem ha
    exact ⟨before, after, by rw [hl, List.append_assoc, List.singleton_append]⟩
  | sendCtrl | recvCtrl | waitPut | waitNotify => cases hm

/-! ### Ranges of which the last one notifies -/

def flagLast (ranges : List Range) : List Parcel :=
  ranges.mapIdx fun j range => ⟨range, j == ranges.length - 1⟩

@[simp] theorem length_flagLast (ranges : List Range) :
    (flagLast ranges).length = ranges.length := List.length_mapIdx

theorem getElem?_flagLast
    (h : (flagLast ranges)[j]? = some m) : ranges[j]? = some m.range := by
  unfold flagLast at h
  rw [List.getElem?_mapIdx, Option.map_eq_some_iff] at h
  obtain ⟨range, hrange, rfl⟩ := h
  exact hrange

theorem exists_flagLast {range : Range}
    (h : ranges[j]? = some range) : ∃ m, (flagLast ranges)[j]? = some m ∧ m.range = range := by
  refine ⟨⟨range, j == ranges.length - 1⟩, ?_, rfl⟩
  unfold flagLast
  rw [List.getElem?_mapIdx, h]
  rfl

theorem notices_take_flagLast (ranges : List Range) (hj : j < ranges.length) :
    notices ((flagLast ranges).take j) = 0 := by
  unfold notices
  rw [List.countP_eq_zero]
  intro m hm
  obtain ⟨i, hi, rfl⟩ := List.mem_take_iff_getElem.mp hm
  rw [length_flagLast] at hi
  unfold flagLast
  rw [List.getElem_mapIdx]
  simp only [beq_iff_eq]
  omega

theorem notices_flagLast (hne : ranges ≠ []) : notices (flagLast ranges) = 1 := by
  rcases List.eq_nil_or_concat ranges with rfl | ⟨front, last, rfl⟩
  · exact absurd rfl hne
  · have hlength : (front.concat last).length - 1 = front.length := by
      rw [List.length_concat, Nat.add_sub_cancel]
    unfold notices flagLast
    rw [hlength, List.concat_eq_append, List.mapIdx_concat, List.countP_append,
      List.countP_singleton, beq_self_eq_true, if_pos rfl]
    have hfront : (front.mapIdx fun j range => (⟨range, j == front.length⟩ : Parcel)).countP
        (·.notify) = 0 := by
      rw [List.countP_eq_zero]
      intro m hm
      obtain ⟨i, hi, rfl⟩ := List.mem_mapIdx.mp hm
      simp only [beq_iff_eq]
      omega
    rw [hfront]

/-- Puts to one peer. -/
def putAll (p : ℕ) (ms : List Parcel) : List Action := ms.map (.put p)

theorem putsTo_putAll (p q : ℕ) (ms : List Parcel) :
    putsTo q (putAll p ms) = if p = q then ms else [] := by
  unfold putsTo putAll
  rw [List.filterMap_map]
  split
  · subst q
    rw [show parcelTo p ∘ Action.put p = some from funext fun m => if_pos rfl]
    exact List.filterMap_some
  · rename_i hne
    rw [List.filterMap_eq_nil_iff]
    exact fun m _ => if_neg hne

/-! ### The control of a run -/

structure Inv (prog : ℕ → List Action) (s : Exchange β) : Prop where
  done : ∀ r, s.done r <+: prog r
  delivered : ∀ q r, s.delivered q r ≤ (putsTo r (s.done q)).length
  waited : ∀ q r, noticesFrom q (s.done r) ≤
    notices ((putsTo r (prog q)).take (s.delivered q r))

@[simp] theorem done_act (s : Exchange β) (r : ℕ) (a : Action) (p : ℕ) :
    (s.act r a).done p = if p = r then s.done r ++ [a] else s.done p := by
  unfold act
  split
  · subst p
    exact Function.update_self ..
  · exact Function.update_of_ne ‹_› ..

theorem prefix_act (s : Exchange β) (r : ℕ) (a : Action) (p : ℕ) :
    s.done p <+: (s.act r a).done p := by
  rw [done_act]
  split
  · subst p
    exact List.prefix_append _ _
  · exact List.prefix_refl _

theorem delivered_deliver (s : Exchange β) (q r : ℕ) (m : Parcel) (q' r' : ℕ) :
    (s.deliver q r m).delivered q' r' =
      if q' = q ∧ r' = r then s.delivered q r + 1 else s.delivered q' r' := by
  unfold deliver
  by_cases hq : q' = q
  · subst hq
    by_cases hr : r' = r
    · subst hr
      simp only [Function.update_self, and_self, if_true]
    · simp only [Function.update_self, Function.update_of_ne hr, hr, and_false, if_false]
  · simp only [Function.update_of_ne hq, hq, false_and, if_false]

theorem delivered_le_deliver (s : Exchange β) (q r : ℕ) (m : Parcel) (q' r' : ℕ) :
    s.delivered q' r' ≤ (s.deliver q r m).delivered q' r' := by
  rw [delivered_deliver]
  split
  · rename_i h
    rw [h.1, h.2]
    exact Nat.le_succ _
  · exact Nat.le_refl _

theorem Inv.act (h : Inv prog s) {r : ℕ} {a : Action} (hnext : s.done r ++ [a] <+: prog r)
    (henabled : s.Enabled r a) : Inv prog (s.act r a) := by
  constructor
  · intro p
    rw [done_act]
    split
    · subst p
      exact hnext
    · exact h.done p
  · intro q p
    exact (h.delivered q p).trans ((putsTo_mono p (prefix_act s r a q)).length_le)
  · intro q p
    change _ ≤ notices ((putsTo p (prog q)).take (s.delivered q p))
    rw [done_act]
    split
    · subst p
      have hold := h.waited q r
      by_cases ha : a = .waitNotify q
      · subst ha
        have hmore : noticesFrom q (s.done r ++ [Action.waitNotify q]) =
            noticesFrom q (s.done r) + 1 := by
          unfold noticesFrom
          rw [List.count_append, List.count_singleton_self]
        rw [hmore, take_putsTo (h.done q) (h.delivered q r)]
        exact henabled
      · have hsame : noticesFrom q (s.done r ++ [a]) = noticesFrom q (s.done r) := by
          unfold noticesFrom
          rw [List.count_append, List.count_eq_zero_of_not_mem (l := [a]), Nat.add_zero]
          rw [List.mem_singleton]
          exact fun heq => ha heq.symm
        rw [hsame]
        exact hold
    · exact h.waited q p

theorem Inv.deliver (h : Inv prog s) {q r : ℕ}
    (hm : (putsTo r (s.done q))[s.delivered q r]? = some m) : Inv prog (s.deliver q r m) := by
  constructor
  · exact h.done
  · intro q' r'
    rw [delivered_deliver]
    split
    · rename_i heq
      rw [heq.1, heq.2]
      exact (List.getElem?_eq_some_iff.mp hm).1
    · exact h.delivered q' r'
  · intro q' r'
    exact (h.waited q' r').trans (notices_take_le _ (delivered_le_deliver s q r m q' r'))

theorem Inv.step (h : Inv prog s) {s' : Exchange β} (hstep : Step n prog s s') : Inv prog s' := by
  cases hstep with
  | act _ hnext henabled => exact h.act hnext henabled
  | deliver _ _ hm => exact h.deliver hm

theorem inv_initial (memory : ℕ → ℕ → β) : Inv prog (initial memory) where
  done _ := List.nil_prefix
  delivered _ _ := Nat.zero_le _
  waited _ _ := Nat.zero_le _

theorem Reachable.inv (h : Reachable n prog memory s) : Inv prog s := by
  induction h with
  | refl => exact inv_initial memory
  | tail _ hstep ih => exact ih.step hstep

end Exchange
end TorchComms.Foundation
