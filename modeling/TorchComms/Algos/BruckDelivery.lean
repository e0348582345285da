import TorchComms.Algos.BruckRounds
import Mathlib.Data.Nat.Log

/-! # Bruck's exchange delivers every block once

The sender of a step lists its blocks from what both sides have, and never comes up empty. What a
rank sends it has been notified of, every byte comes to a rank in one put, and every notification
that a rank waits for is issued.
-/
namespace TorchComms.Algos.AllGatherBrucksFF

open Foundation Exchange

variable {p sendSize r q i j b t x : ℕ}

theorem ctrlTo_setup (hp : 2 ≤ p) (hr : r < p) (hi : i < ceilLog2I p) :
    1 ≤ ctrlTo r (upTo (rounds p sendSize) (dstAtStep p r i) 1) := by
  have hone : upTo (rounds p sendSize) (dstAtStep p r i) 1 = setup p (dstAtStep p r i) := by
    rw [upTo_succ]
    rfl
  unfold ctrlTo
  rw [hone, List.one_le_count_iff]
  exact List.mem_map.mpr ⟨i, List.mem_range.mpr hi, by rw [src_dst hp hr]⟩

theorem notices_parcels (hp : 2 ≤ p) (hr : r < p) (hi : i < ceilLog2I p) (half : ℕ → Range) :
    notices (parcels half p r i) = 1 := by
  apply notices_flagLast
  rw [ne_eq, List.map_eq_nil_iff]
  exact sends_ne_nil hp hr hi

theorem notices_append (ms ms' : List Parcel) :
    notices (ms ++ ms') = notices ms + notices ms' := List.countP_append

theorem putsTo_src (hp : 2 ≤ p) (hr : r < p) (hi : i < ceilLog2I p) (ht : 4 * i + 4 < t) :
    putsTo r (upTo (rounds p sendSize) (srcAtStep p r i) t) =
      parcels (firstHalf sendSize) p (srcAtStep p r i) i ++
        parcels (secondHalf sendSize) p (srcAtStep p r i) i := by
  rw [putsTo_upTo_src hp hr hi, if_pos (by omega), if_pos ht]

variable {m : Parcel} {k : ℕ}

theorem round_of_waitPut (h : Action.waitPut q k ∈ rounds p sendSize r t) :
    ∃ i < ceilLog2I p, 4 * i + 4 < t ∧ q = dstAtStep p r i ∧
      k ≤ 2 * (sendsAtStep p r i).length := by
  rcases round_cases t with rfl | ⟨j, e, he, rfl⟩
  · obtain ⟨i, _, heq⟩ := List.mem_map.mp h
    cases heq
  · rw [rounds_slot j e he] at h
    have hcases : e = 0 ∨ e = 1 ∨ e = 2 ∨ e = 3 := by omega
    rcases hcases with rfl | rfl | rfl | rfl
    · change _ ∈ ctrlRound p r j at h
      unfold ctrlRound at h
      split at h <;> split at h <;> simp at h
    · change _ ∈ firstRound p sendSize r j at h
      unfold firstRound at h
      split at h
      · exact absurd h (not_mem_iputs nofun)
      · cases h
    · change _ ∈ waitRound p r j at h
      unfold waitRound at h
      split at h <;> simp at h
    · change _ ∈ secondRound p sendSize r j at h
      unfold secondRound at h
      split at h
      · exact absurd h (not_mem_iputs nofun)
      · obtain ⟨i, hi, heq | heq⟩ := mem_finish h
        · cases heq
          exact ⟨i, hi, by omega, rfl, by omega⟩
        · cases heq
          exact ⟨i, hi, by omega, rfl, Nat.le_refl _⟩

theorem supplied (hp : 2 ≤ p) : Supplied p (nRounds p) (rounds p sendSize) where
  recvCtrl r hr t _ q hmem := by
    obtain ⟨i, hi, rfl, rfl⟩ := round_of_recvCtrl hmem
    refine ⟨dst_lt hp, (ctrlFrom_upTo hp hr hi).trans ?_⟩
    exact (ctrlTo_setup hp hr hi).trans ((upTo_mono (by omega)).count_le _)
  waitPut r hr t _ q k hmem := by
    obtain ⟨i, hi, ht, rfl, hk⟩ := round_of_waitPut hmem
    refine ⟨dst_lt hp, ?_⟩
    have hputs := @putsTo_src p sendSize _ _ _ hp (dst_lt (r := r) (i := i) hp) hi ht
    rw [src_dst hp hr] at hputs
    rw [hputs, List.length_append, length_parcels, length_parcels]
    omega
  waitNotify r hr t _ q hmem := by
    obtain ⟨i, hi, rfl, hround⟩ := round_of_waitNotify hmem
    refine ⟨src_lt hp, ?_⟩
    rw [noticesFrom_upTo hp hi, putsTo_src hp hr hi (by omega), notices_append,
      notices_parcels hp (src_lt hp) hi, notices_parcels hp (src_lt hp) hi]
    split <;> split <;> omega

/-! ### What is put is known -/

/-- The bytes of a rank's own block. -/
def own (sendSize r x : ℕ) : Prop := r * sendSize ≤ x ∧ x < (r + 1) * sendSize

theorem puts_eq (hp : 2 ≤ p) (hr : r < p) (hi : i < ceilLog2I p) :
    putsTo r (impl p sendSize (srcAtStep p r i)) =
      parcels (firstHalf sendSize) p (srcAtStep p r i) i ++
        parcels (secondHalf sendSize) p (srcAtStep p r i) i := by
  rw [impl_eq hp (src_lt hp)]
  apply putsTo_src hp hr hi
  unfold nRounds
  omega

theorem getElem?_parcels {half : ℕ → Range} (h : (parcels half p r i)[j]? = some m) :
    ∃ b, (sendsAtStep p r i)[j]? = some b ∧ m.range = half b := by
  have hrange := getElem?_flagLast h
  rw [List.getElem?_map, Option.map_eq_some_iff] at hrange
  obtain ⟨b, hb, heq⟩ := hrange
  exact ⟨b, hb, heq.symm⟩

theorem exists_parcel (half : ℕ → Range) (hb : b ∈ sendsAtStep p r i) :
    ∃ j m, j < (sendsAtStep p r i).length ∧ (parcels half p r i)[j]? = some m ∧
      m.range = half b := by
  obtain ⟨j, hj, rfl⟩ := List.mem_iff_getElem.mp hb
  have hget : ((sendsAtStep p r i).map half)[j]? = some (half (sendsAtStep p r i)[j]) := by
    rw [List.getElem?_map, List.getElem?_eq_getElem hj]
    rfl
  obtain ⟨m, hm, hrange⟩ := exists_flagLast hget
  exact ⟨j, m, hj, hm, hrange⟩

variable {before : List Action}

theorem known_firstHalf (hp : 2 ≤ p) (hr : r < p) (hi : i < ceilLog2I p)
    (hb : b ∈ sendsAtStep p (srcAtStep p r i) i)
    (hwaited : 1 ≤ noticesFrom (srcAtStep p r i) before)
    (hx : (firstHalf sendSize b).base ≤ x ∧ x < (firstHalf sendSize b).stop) :
    Known (own sendSize) (impl p sendSize) r before x := by
  obtain ⟨j, m, hj, hm, hrange⟩ := exists_parcel (firstHalf sendSize) hb
  have hlt : j < (parcels (firstHalf sendSize) p (srcAtStep p r i) i).length := by
    rwa [length_parcels]
  refine .inr ⟨srcAtStep p r i, j, m, ?_, ?_, ?_⟩
  · rw [puts_eq hp hr hi, List.getElem?_append_left hlt, hm]
  · unfold Parcel.Covers
    rwa [hrange]
  · rw [puts_eq hp hr hi, List.take_append_of_le_length hlt.le]
    have hnone := notices_take_flagLast
      ((sendsAtStep p (srcAtStep p r i) i).map (firstHalf sendSize)) (j := j)
      (by rwa [List.length_map])
    unfold parcels
    omega

theorem known_secondHalf (hp : 2 ≤ p) (hr : r < p) (hi : i < ceilLog2I p)
    (hb : b ∈ sendsAtStep p (srcAtStep p r i) i)
    (hwaited : 2 ≤ noticesFrom (srcAtStep p r i) before)
    (hx : (secondHalf sendSize b).base ≤ x ∧ x < (secondHalf sendSize b).stop) :
    Known (own sendSize) (impl p sendSize) r before x := by
  obtain ⟨j, m, hj, hm, hrange⟩ := exists_parcel (secondHalf sendSize) hb
  refine .inr ⟨srcAtStep p r i, (sendsAtStep p (srcAtStep p r i) i).length + j, m, ?_, ?_, ?_⟩
  · rw [puts_eq hp hr hi, List.getElem?_append_right (by rw [length_parcels]; omega),
      length_parcels, Nat.add_sub_cancel_left, hm]
  · unfold Parcel.Covers
    rwa [hrange]
  · rw [puts_eq hp hr hi, List.take_append, length_parcels, Nat.add_sub_cancel_left,
      List.take_of_length_le (by rw [length_parcels]; omega), notices_append,
      notices_parcels hp (src_lt hp) hi]
    have hnone := notices_take_flagLast
      ((sendsAtStep p (srcAtStep p r i) i).map (secondHalf sendSize)) (j := j)
      (by rwa [List.length_map])
    unfold parcels
    omega

theorem round_of_put (h : Action.put q m ∈ rounds p sendSize r t) :
    ∃ i < ceilLog2I p, (t = 4 * i + 2 ∧ m ∈ parcels (firstHalf sendSize) p r i) ∨
      (t = 4 * i + 4 ∧ m ∈ parcels (secondHalf sendSize) p r i) := by
  have hmem : m ∈ putsTo q (rounds p sendSize r t) :=
    List.mem_filterMap.mpr ⟨_, h, if_pos rfl⟩
  rcases round_cases t with rfl | ⟨i, e, he, rfl⟩
  · change m ∈ putsTo q (setup p r) at hmem
    rw [putsTo_setup] at hmem
    cases hmem
  · rw [rounds_slot i e he, putsTo_slot q e he] at hmem
    split at hmem
    · rename_i hcond
      obtain ⟨hi, _, rfl | rfl⟩ := hcond
      · exact ⟨i, hi, .inl ⟨rfl, hmem⟩⟩
      · exact ⟨i, hi, .inr ⟨rfl, hmem⟩⟩
    · cases hmem

theorem block_bytes (S b : ℕ) : (b + 1) * S = b * S + S := Nat.succ_mul b S

theorem covered (hp : 2 ≤ p) : Covered p (own sendSize) (impl p sendSize) := by
  refine covered_of_rounds (fun r hr => impl_eq hp hr) ?_
  · intro r hr t _ q m hput x hx
    unfold Parcel.Covers at hx
    obtain ⟨i, hi, hround⟩ := round_of_put hput
    rcases hround with ⟨rfl, hm⟩ | ⟨rfl, hm⟩
    · obtain ⟨j, hj⟩ := List.getElem?_of_mem hm
      obtain ⟨b, hb, hrange⟩ := getElem?_parcels hj
      rw [hrange] at hx
      have hhas := ((mem_sendsAtStep hp hr hi.le).mp (List.mem_of_getElem? hb)).1
      rcases exists_step hp hr hi.le hhas with rfl | ⟨j, hj, hmem⟩
      · left
        have hblock := block_bytes sendSize b
        unfold firstHalf Range.stop at hx
        simp only at hx
        unfold own
        omega
      · apply known_firstHalf hp hr (hj.trans hi) hmem _ hx
        rw [noticesFrom_upTo hp (hj.trans hi), if_pos (by omega)]
        exact Nat.le_add_right _ _
    · obtain ⟨j, hj⟩ := List.getElem?_of_mem hm
      obtain ⟨b, hb, hrange⟩ := getElem?_parcels hj
      rw [hrange] at hx
      have hhas := ((mem_sendsAtStep hp hr hi.le).mp (List.mem_of_getElem? hb)).1
      rcases exists_step hp hr hi.le hhas with rfl | ⟨j, hj, hmem⟩
      · left
        have hblock := block_bytes sendSize b
        unfold secondHalf Range.stop at hx
        simp only at hx
        unfold own
        omega
      · apply known_secondHalf hp hr (hj.trans hi) hmem _ hx
        rw [noticesFrom_upTo hp (hj.trans hi), if_pos (by omega), if_pos (by omega)]

section

variable (hp : 2 ≤ p) (hr : r < p)
include hp hr

theorem noticesFrom_impl (hi : i < ceilLog2I p) :
    noticesFrom (srcAtStep p r i) (impl p sendSize r) = 2 := by
  rw [impl_eq hp hr, noticesFrom_upTo hp hi]
  unfold nRounds
  rw [if_pos (by omega), if_pos (by omega)]

/-- A rank whose program is done knows every byte. -/
theorem known_all (hx : x < p * sendSize) :
    Known (own sendSize) (impl p sendSize) r (impl p sendSize r) x := by
  have hpos : 0 < sendSize := by
    by_contra hzero
    rw [Nat.eq_zero_of_not_pos hzero, Nat.mul_zero] at hx
    exact absurd hx (Nat.not_lt_zero x)
  have hb : x / sendSize < p := (Nat.div_lt_iff_lt_mul hpos).mpr hx
  have hdiv := Nat.div_add_mod x sendSize
  have hmod := Nat.mod_lt x hpos
  rw [Nat.mul_comm] at hdiv
  have hblock := block_bytes sendSize (x / sendSize)
  rcases exists_step hp hr (Nat.le_refl _) (has_last hp hr hb) with heq | ⟨i, hi, hmem⟩
  · left
    unfold own
    rw [← heq]
    omega
  · have hwaited := @noticesFrom_impl p sendSize r i hp hr hi
    rcases Nat.lt_or_ge (x % sendSize) (sendSize / 2) with hlow | hhigh
    · apply known_firstHalf hp hr hi hmem (by omega)
      unfold firstHalf Range.stop
      simp only
      omega
    · apply known_secondHalf hp hr hi hmem (by omega)
      unfold secondHalf Range.stop
      simp only
      omega

/-! ### Every byte comes once -/

/-- Where a put to a rank comes from, and what it carries. -/
theorem put_source (hq : q < p) (hm : (putsTo r (impl p sendSize q))[k]? = some m) :
    ∃ i < ceilLog2I p, q = srcAtStep p r i ∧
      ((∃ b, (sendsAtStep p q i)[k]? = some b ∧ m.range = firstHalf sendSize b) ∨
        (sendsAtStep p q i).length ≤ k ∧ ∃ b,
          (sendsAtStep p q i)[k - (sendsAtStep p q i).length]? = some b ∧
            m.range = secondHalf sendSize b) := by
  by_cases hsrc : ∃ i < ceilLog2I p, q = srcAtStep p r i
  · obtain ⟨i, hi, rfl⟩ := hsrc
    refine ⟨i, hi, rfl, ?_⟩
    rw [puts_eq hp hr hi] at hm
    rcases Nat.lt_or_ge k (parcels (firstHalf sendSize) p (srcAtStep p r i) i).length with hlt | hge
    · rw [List.getElem?_append_left hlt] at hm
      exact .inl (getElem?_parcels hm)
    · rw [List.getElem?_append_right hge, length_parcels] at hm
      rw [length_parcels] at hge
      exact .inr ⟨hge, getElem?_parcels hm⟩
  · rw [impl_eq hp hq, putsTo_upTo_other hp hr hq] at hm
    · cases hm
    · intro i hi heq
      exact hsrc ⟨i, hi, heq⟩

end

theorem block_of_firstHalf (hx : (firstHalf sendSize b).base ≤ x ∧ x < (firstHalf sendSize b).stop) :
    x / sendSize = b ∧ x % sendSize < sendSize / 2 := by
  unfold firstHalf Range.stop at hx
  simp only at hx
  have hpos : 0 < sendSize := by omega
  have hb : x / sendSize = b := by
    apply Nat.div_eq_of_lt_le
    · exact hx.1
    · rw [Nat.succ_mul]
      omega
  have hdiv := Nat.div_add_mod x sendSize
  rw [Nat.mul_comm, hb] at hdiv
  exact ⟨hb, by omega⟩

theorem block_of_secondHalf
    (hx : (secondHalf sendSize b).base ≤ x ∧ x < (secondHalf sendSize b).stop) :
    x / sendSize = b ∧ sendSize / 2 ≤ x % sendSize := by
  unfold secondHalf Range.stop at hx
  simp only at hx
  have hb : x / sendSize = b := by
    apply Nat.div_eq_of_lt_le
    · omega
    · rw [Nat.succ_mul]
      omega
  have hdiv := Nat.div_add_mod x sendSize
  rw [Nat.mul_comm, hb] at hdiv
  exact ⟨hb, by omega⟩

theorem index_unique {l : List ℕ} (hl : l.Nodup) (hi : l[i]? = some b) (hj : l[j]? = some b) :
    i = j := by
  obtain ⟨hilt, hib⟩ := List.getElem?_eq_some_iff.mp hi
  obtain ⟨hjlt, hjb⟩ := List.getElem?_eq_some_iff.mp hj
  exact (List.Nodup.getElem_inj_iff hl).mp (hib.trans hjb.symm)

/-- The k-th put of `q` to `r` brings the byte. -/
def Brings (p sendSize r x q k : ℕ) : Prop :=
  ∃ m, (putsTo r (impl p sendSize q))[k]? = some m ∧ m.Covers x

section

variable (hp : 2 ≤ p) (hr : r < p)
include hp hr

theorem brings_unique {q' k k' : ℕ} (hq : q < p) (hq' : q' < p)
    (h : Brings p sendSize r x q k) (h' : Brings p sendSize r x q' k') : q = q' ∧ k = k' := by
  obtain ⟨m, hm, hx⟩ := h
  obtain ⟨m', hm', hx'⟩ := h'
  unfold Parcel.Covers at hx hx'
  obtain ⟨i, hi, rfl, hcases⟩ := put_source hp hr hq hm
  obtain ⟨i', hi', rfl, hcases'⟩ := put_source hp hr hq' hm'
  have hstep : ∀ {b b'}, x / sendSize = b → x / sendSize = b' →
      b ∈ sendsAtStep p (srcAtStep p r i) i → b' ∈ sendsAtStep p (srcAtStep p r i') i' →
        i = i' := by
    intro b b' hb hb' hmem hmem'
    rw [← hb] at hmem
    rw [← hb'] at hmem'
    exact step_unique hp hr hi hi' hmem hmem'
  rcases hcases with ⟨b, hb, hrange⟩ | ⟨hge, b, hb, hrange⟩ <;>
    rcases hcases' with ⟨b', hb', hrange'⟩ | ⟨hge', b', hb', hrange'⟩ <;>
    rw [hrange] at hx <;> rw [hrange'] at hx'
  · obtain ⟨hxb, _⟩ := block_of_firstHalf hx
    obtain ⟨hxb', _⟩ := block_of_firstHalf hx'
    obtain rfl := hstep hxb hxb' (List.mem_of_getElem? hb) (List.mem_of_getElem? hb')
    obtain rfl : b = b' := hxb.symm.trans hxb'
    exact ⟨rfl, index_unique nodup_sendsAtStep hb hb'⟩
  · have hlow := (block_of_firstHalf hx).2
    have hhigh := (block_of_secondHalf hx').2
    omega
  · have hhigh := (block_of_secondHalf hx).2
    have hlow := (block_of_firstHalf hx').2
    omega
  · obtain ⟨hxb, _⟩ := block_of_secondHalf hx
    obtain ⟨hxb', _⟩ := block_of_secondHalf hx'
    obtain rfl := hstep hxb hxb' (List.mem_of_getElem? hb) (List.mem_of_getElem? hb')
    obtain rfl : b = b' := hxb.symm.trans hxb'
    have := index_unique nodup_sendsAtStep hb hb'
    exact ⟨rfl, by omega⟩

theorem not_brings_own (hq : q < p) (hx : own sendSize r x) : ¬ Brings p sendSize r x q k := by
  rintro ⟨m, hm, hcov⟩
  unfold Parcel.Covers at hcov
  obtain ⟨i, hi, rfl, hcases⟩ := put_source hp hr hq hm
  have hself : x / sendSize = r := by
    apply Nat.div_eq_of_lt_le
    · exact hx.1
    · exact hx.2
  rcases hcases with ⟨b, hb, hrange⟩ | ⟨_, b, hb, hrange⟩ <;> rw [hrange] at hcov
  · obtain rfl : b = r := (block_of_firstHalf hcov).1.symm.trans hself
    exact own_not_mem hp hr hi (List.mem_of_getElem? hb)
  · obtain rfl : b = r := (block_of_secondHalf hcov).1.symm.trans hself
    exact own_not_mem hp hr hi (List.mem_of_getElem? hb)

theorem exists_brings (hx : x < p * sendSize)
    (hown : ¬ own sendSize r x) : ∃ q < p, ∃ k, Brings p sendSize r x q k := by
  rcases known_all hp hr hx with h | ⟨q, k, m, hm, hcov, hlt⟩
  · exact absurd h hown
  · refine ⟨q, ?_, k, m, hm, hcov⟩
    have hmem : Action.waitNotify q ∈ impl p sendSize r :=
      List.count_pos_iff.mp (Nat.zero_lt_of_lt hlt)
    rw [impl_eq hp hr] at hmem
    obtain ⟨t, _, ht⟩ := List.mem_flatMap.mp hmem
    obtain ⟨i, _, rfl, _⟩ := round_of_waitNotify ht
    exact src_lt hp

end

/-! ### The run -/

section Run

variable {β : Type}

/-- What a byte of the receive buffers is in the end: what its owner had there. -/
def final (sendSize : ℕ) (recvbuff : ℕ → ℕ → β) (x : ℕ) : β := recvbuff (x / sendSize) x

/-- A rank that goes on with a put has the bytes and was notified of those that are not its own. -/
def SendsKnown (p sendSize : ℕ) (recvbuff : ℕ → ℕ → β) (s : Exchange β) : Prop :=
  ∀ r < p, ∀ q m, s.done r ++ [.put q m] <+: impl p sendSize r → ∀ x, m.Covers x →
    Known (own sendSize) (impl p sendSize) r (s.done r) x ∧
      s.memory r x = final sendSize recvbuff x

/-- A rank that has done its steps holds all blocks. -/
def Gathered (p sendSize : ℕ) (recvbuff : ℕ → ℕ → β) (s : Exchange β) : Prop :=
  ∀ r < p, s.done r = impl p sendSize r → ∀ x < p * sendSize,
    s.memory r x = recvbuff (x / sendSize) x

/-- Every byte that is not a rank's own comes to it in exactly one put, and no other byte does. -/
def Once (p sendSize : ℕ) : Prop :=
  ∀ r < p, ∀ x < p * sendSize,
    (¬ own sendSize r x → ∃! k : ℕ × ℕ, k.1 < p ∧ Brings p sendSize r x k.1 k.2) ∧
    (own sendSize r x → ∀ q < p, ∀ k, ¬ Brings p sendSize r x q k)

/-- The source of a step issues to a rank, with the puts of that step alone, as many notifications
as the rank waits for from it. -/
def NoticesMatch (p sendSize : ℕ) : Prop :=
  ∀ r < p, ∀ i < ceilLog2I p, srcAtStep p r i < p ∧ srcAtStep p r i ≠ r ∧
    dstAtStep p (srcAtStep p r i) i = r ∧
    putsTo r (impl p sendSize (srcAtStep p r i)) =
      putsTo r (firstPuts p sendSize (srcAtStep p r i) i) ++
        putsTo r (secondPuts p sendSize (srcAtStep p r i) i) ∧
    notices (putsTo r (firstPuts p sendSize (srcAtStep p r i) i)) = 1 ∧
    notices (putsTo r (secondPuts p sendSize (srcAtStep p r i) i)) = 1 ∧
    noticesFrom (srcAtStep p r i) (impl p sendSize r) = 2

/-- The exchange delivers: no list of blocks is empty, notifications and bytes match, every run ends
and keeps to what is known, and leaves every rank with all blocks. -/
structure Delivers (p sendSize : ℕ) : Prop where
  steps : ceilLog2I p = Nat.clog 2 p
  nonempty : ∀ r < p, ∀ i < ceilLog2I p, sendsAtStep p r i ≠ []
  notices : NoticesMatch p sendSize
  once : Once p sendSize
  progress : ∀ (β : Type) (recvbuff : ℕ → ℕ → β) s, Reachable p (impl p sendSize) recvbuff s →
    ¬ AllDone p (impl p sendSize) s → ∃ s', Step p (impl p sendSize) s s'
  stops : ∀ (β : Type) (recvbuff : ℕ → ℕ → β) (run : ℕ → Exchange β),
    Reachable p (impl p sendSize) recvbuff (run 0) →
      ∃ k, ¬ Step p (impl p sendSize) (run k) (run (k + 1))
  known : ∀ (β : Type) (recvbuff : ℕ → ℕ → β) s, Reachable p (impl p sendSize) recvbuff s →
    SendsKnown p sendSize recvbuff s
  gathered : ∀ (β : Type) (recvbuff : ℕ → ℕ → β) s, Reachable p (impl p sendSize) recvbuff s →
    Gathered p sendSize recvbuff s

theorem steps_eq (hp : 2 ≤ p) : ceilLog2I p = Nat.clog 2 p := by
  apply Nat.le_antisymm
  · have hlt := (Nat.lt_clog_iff_pow_lt Nat.one_lt_two).mpr (half_lt hp)
    have hpos : 1 ≤ ceilLog2I p := steps_pos
    omega
  · exact (Nat.clog_le_iff_le_pow Nat.one_lt_two).mpr (le_pow hp)

theorem noticesMatch (hp : 2 ≤ p) : NoticesMatch p sendSize := by
  intro r hr i hi
  have hfirst : putsTo r (firstPuts p sendSize (srcAtStep p r i) i) =
      parcels (firstHalf sendSize) p (srcAtStep p r i) i := by
    rw [putsTo_firstPuts, if_pos (dst_src hp hr)]
  have hsecond : putsTo r (secondPuts p sendSize (srcAtStep p r i) i) =
      parcels (secondHalf sendSize) p (srcAtStep p r i) i := by
    rw [putsTo_secondPuts, if_pos (dst_src hp hr)]
  refine ⟨src_lt hp, src_ne hp hr, dst_src hp hr, ?_, ?_, ?_, noticesFrom_impl hp hr hi⟩
  · rw [hfirst, hsecond, puts_eq hp hr hi]
  · rw [hfirst, notices_parcels hp (src_lt hp) hi]
  · rw [hsecond, notices_parcels hp (src_lt hp) hi]

theorem once (hp : 2 ≤ p) : Once p sendSize := by
  intro r hr x hx
  constructor
  · intro hown
    obtain ⟨q, hq, k, hbrings⟩ := exists_brings hp hr hx hown
    refine ⟨(q, k), ⟨hq, hbrings⟩, ?_⟩
    rintro ⟨q', k'⟩ ⟨hq', hbrings'⟩
    obtain ⟨rfl, rfl⟩ := brings_unique hp hr hq hq' hbrings hbrings'
    rfl
  · exact fun hown q hq k => not_brings_own hp hr hq hown

theorem holds (hp : 2 ≤ p) {recvbuff : ℕ → ℕ → β} {s : Exchange β}
    (h : Reachable p (impl p sendSize) recvbuff s) :
    Holds (own sendSize) (final sendSize recvbuff) (impl p sendSize) s := by
  apply h.holds (covered hp)
  intro r x hx
  have hself : x / sendSize = r := Nat.div_eq_of_lt_le hx.1 hx.2
  unfold final
  rw [hself]

end Run

theorem delivers (p sendSize : ℕ) (hp : 2 ≤ p) : Delivers p sendSize where
  steps := steps_eq hp
  nonempty _ hr _ hi := sends_ne_nil hp hr hi
  notices := noticesMatch hp
  once := once hp
  progress _ _ _ h hnot := h.inv.progress (fun _ hr => impl_eq hp hr) (supplied hp) hnot
  stops _ _ run h := stops run h
  known _ recvbuff s h r hr q m hnext x hx := by
    have hknown := covered hp r hr (s.done r) q m hnext x hx
    exact ⟨hknown, (holds hp h).of_known h.inv (List.prefix_refl _) hknown⟩
  gathered _ recvbuff s h r hr hdone x hx :=
    (holds hp h).of_known h.inv (hdone ▸ List.prefix_refl _) (known_all hp hr hx)

theorem delivers_six : 2 ≤ 6 ∧ Delivers 6 1024 := ⟨by decide, delivers 6 1024 (by decide)⟩

end TorchComms.Algos.AllGatherBrucksFF
