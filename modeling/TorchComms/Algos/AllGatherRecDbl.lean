import TorchComms.Algos.BruckDelivery
import Mathlib.Algebra.Order.Ring.GeomSum

/-! # AllGather by recursive doubling

In every step a rank puts all blocks it has to a peer, at half the distance of the step before, and
gets the blocks of that peer. All blocks come to all ranks if and only if the number of ranks is a
power of two.
-/
namespace TorchComms.Algos.AllGatherRecDbl

open Foundation Exchange
open AllGatherBrucksFF (final filter_of_not_mem)

section Program

variable (nRanks sendSize : ℕ) (rtr : Bool) (rank i : ℕ)

def nSteps : ℕ := Nat.log2 nRanks

def dist : ℕ := nRanks / 2 <<< i

def peer : ℕ :=
  if rank / dist nRanks i % 2 = 0 then rank + dist nRanks i else rank - dist nRanks i

def putOffset (j : ℕ) : ℕ := j * (nRanks / 1 <<< i) + rank % (nRanks / 1 <<< i)

/-- The puts of a step, the last one with a notification. -/
def iputs : List Action :=
  (List.range (1 <<< i)).map fun j =>
    .put (peer nRanks rank i) ⟨⟨putOffset nRanks rank i j * sendSize, sendSize⟩, j == 1 <<< i - 1⟩

/-- All peers are told that they may put, unless every step tells its own (`rtr`). -/
def setup : List Action :=
  if rtr then [] else (List.range (nSteps nRanks)).map fun i => .sendCtrl (peer nRanks rank i)

/-- What a step does before it waits for the peer's handle, from there on, and behind its puts. -/
def part : ℕ → List Action
  | 0 => if rtr then [.sendCtrl (peer nRanks rank i)] else []
  | 1 => .recvCtrl (peer nRanks rank i) :: iputs nRanks sendSize rank i
  | _ => [.waitPut (peer nRanks rank i) (1 <<< i), .waitNotify (peer nRanks rank i)]

def impl : List Action :=
  setup nRanks rtr rank ++ (List.range (nSteps nRanks)).flatMap fun i =>
    (List.range 3).flatMap (part nRanks sendSize rtr rank i)

/-- The parts of the steps are the rounds of all ranks. -/
def rounds : ℕ → List Action
  | 0 => setup nRanks rtr rank
  | t + 1 => part nRanks sendSize rtr rank (t / 3) (t % 3)

end Program

/-! ### Peers -/

/-- The number at distance `d` that differs in the bit of `d`. -/
def swap (d r : ℕ) : ℕ := if r / d % 2 = 0 then r + d else r - d

section Swap

variable {d r a n : ℕ}

theorem le_of_odd (h : ¬ r / d % 2 = 0) : d ≤ r := by
  by_contra hlt
  rw [Nat.div_eq_of_lt (Nat.lt_of_not_le hlt)] at h
  exact h rfl

theorem swap_mod : swap d r % d = r % d := by
  unfold swap
  split
  · exact Nat.add_mod_right r d
  · exact (Nat.mod_eq_sub_mod (le_of_odd ‹_›)).symm

theorem mod_eq_iff : a % (d * 2) = r % (d * 2) ↔ a % d = r % d ∧ a / d % 2 = r / d % 2 := by
  constructor
  · intro h
    constructor
    · rw [← Nat.mod_mul_right_mod a d 2, h, Nat.mod_mul_right_mod]
    · rw [← Nat.mod_mul_right_div_self, h, Nat.mod_mul_right_div_self]
  · rintro ⟨hmod, hdiv⟩
    rw [Nat.mod_mul, Nat.mod_mul, hmod, hdiv]

variable (hd : 0 < d)
include hd

theorem swap_div : swap d r / d = if r / d % 2 = 0 then r / d + 1 else r / d - 1 := by
  unfold swap
  split
  · exact Nat.add_div_right r hd
  · rw [Nat.div_eq_sub_div (a := r) hd (le_of_odd ‹_›), Nat.add_sub_cancel]

theorem swap_swap : swap d (swap d r) = r := by
  rw [swap, swap_div hd]
  unfold swap
  by_cases h : r / d % 2 = 0
  · rw [if_pos h, if_pos h, if_neg (by omega), Nat.add_sub_cancel]
  · rw [if_neg h, if_neg h, if_pos (by omega), Nat.sub_add_cancel (le_of_odd h)]

theorem swap_lt (hn : d * 2 ∣ n) (hr : r < n) : swap d r < n := by
  obtain ⟨m, rfl⟩ := hn
  rw [Nat.mul_assoc] at hr ⊢
  have hdiv := Nat.div_lt_of_lt_mul hr
  rw [Nat.mul_comm, ← Nat.div_lt_iff_lt_mul hd, swap_div hd]
  generalize r / d = c at hdiv
  split <;> omega

theorem mod_eq_swap_iff :
    a % (d * 2) = swap d r % (d * 2) ↔ a % d = r % d ∧ a / d % 2 ≠ r / d % 2 := by
  rw [mod_eq_iff, swap_mod, swap_div hd]
  split <;> omega

end Swap

/-! ### The blocks of a step -/

variable {k r q i j b t sendSize : ℕ} {rtr : Bool}

/-- A rank has the blocks that are congruent to it modulo the width of the step. -/
def width (k i : ℕ) : ℕ := 2 ^ (k - i)

theorem width_pos : 0 < width k i := Nat.two_pow_pos _

theorem width_eq (hi : i ≤ k) : 2 ^ k / 1 <<< i = width k i := by
  rw [Nat.one_shiftLeft, Nat.pow_div hi Nat.two_pos, width]

theorem width_succ (hi : i < k) : width k i = width k (i + 1) * 2 := by
  unfold width
  rw [← Nat.pow_succ]
  congr 1
  omega

theorem width_mul (hi : i ≤ k) : 2 ^ i * width k i = 2 ^ k := by
  unfold width
  rw [← Nat.pow_add, Nat.add_sub_cancel' hi]

theorem peer_eq (hi : i < k) : peer (2 ^ k) r i = swap (width k (i + 1)) r := by
  have hdist : dist (2 ^ k) i = width k (i + 1) := by
    unfold dist
    rw [Nat.shiftLeft_eq, ← Nat.pow_succ', Nat.pow_div hi Nat.two_pos, width]
  unfold peer swap
  rw [hdist]

theorem peer_lt (hi : i < k) (hr : r < 2 ^ k) : peer (2 ^ k) r i < 2 ^ k := by
  rw [peer_eq hi]
  apply swap_lt width_pos _ hr
  rw [← width_succ hi]
  exact Dvd.intro_left _ (width_mul hi.le)

theorem peer_peer (hi : i < k) : peer (2 ^ k) (peer (2 ^ k) r i) i = r := by
  rw [peer_eq hi, peer_eq hi, swap_swap width_pos]

/-- What comes in a step is new, and all that is missing at the next width. -/
theorem mod_peer_iff (hi : i < k) : b % width k i = peer (2 ^ k) r i % width k i ↔
    b % width k (i + 1) = r % width k (i + 1) ∧ b % width k i ≠ r % width k i := by
  rw [peer_eq hi, width_succ hi, mod_eq_swap_iff width_pos, ne_eq, ne_eq, mod_eq_iff]
  tauto

theorem mod_width_of_le (hij : i ≤ j) (h : b % width k i = r % width k i) :
    b % width k j = r % width k j := by
  have hdvd : width k j ∣ width k i := Nat.pow_dvd_pow 2 (by omega)
  rw [← Nat.mod_mod_of_dvd b hdvd, h, Nat.mod_mod_of_dvd r hdvd]

/-- A block comes in one step only. -/
theorem step_unique (hi : i < k) (hj : j < k) (h : b % width k i = peer (2 ^ k) r i % width k i)
    (h' : b % width k j = peer (2 ^ k) r j % width k j) : i = j := by
  obtain ⟨hnow, hnew⟩ := (mod_peer_iff hi).mp h
  obtain ⟨hnow', hnew'⟩ := (mod_peer_iff hj).mp h'
  rcases Nat.lt_trichotomy i j with hlt | rfl | hlt
  · exact absurd (mod_width_of_le hlt hnow) hnew'
  · rfl
  · exact absurd (mod_width_of_le hlt hnow') hnew

theorem peer_inj (hi : i < k) (hj : j < k) (h : peer (2 ^ k) r i = peer (2 ^ k) r j) : i = j :=
  step_unique (r := r) hi hj rfl (by rw [h])

theorem exists_step (hb : b < 2 ^ k) (hr : r < 2 ^ k) (hne : b ≠ r) :
    ∃ i < k, b % width k i = peer (2 ^ k) r i % width k i := by
  by_contra hnone
  have hall : ∀ i ≤ k, b % width k i ≠ r % width k i := by
    intro i hi
    induction i with
    | zero =>
      rwa [width, Nat.sub_zero, Nat.mod_eq_of_lt hb, Nat.mod_eq_of_lt hr]
    | succ i ih =>
      exact fun h => hnone ⟨i, hi, (mod_peer_iff hi).mpr ⟨h, ih (Nat.le_of_lt hi)⟩⟩
  apply hall k le_rfl
  rw [width, Nat.sub_self, Nat.pow_zero, Nat.mod_one, Nat.mod_one]

theorem putOffset_eq (hi : i ≤ k) : putOffset (2 ^ k) r i j = j * width k i + r % width k i := by
  rw [putOffset, width_eq hi]

theorem putOffset_mod (hi : i ≤ k) : putOffset (2 ^ k) r i j % width k i = r % width k i := by
  rw [putOffset_eq hi, Nat.mul_add_mod_self_right, Nat.mod_mod]

theorem putOffset_lt (hi : i ≤ k) (hj : j < 1 <<< i) : putOffset (2 ^ k) r i j < 2 ^ k := by
  rw [Nat.one_shiftLeft] at hj
  have hmul := Nat.mul_le_mul_right (width k i) (Nat.succ_le_of_lt hj)
  rw [width_mul hi, Nat.succ_mul] at hmul
  rw [putOffset_eq hi]
  exact (Nat.add_lt_add_left (Nat.mod_lt _ width_pos) _).trans_le hmul

/-- The `j`-th put of a step. -/
theorem putOffset_iff (hi : i ≤ k) (hb : b < 2 ^ k) : j < 1 <<< i ∧ putOffset (2 ^ k) r i j = b ↔
    b % width k i = r % width k i ∧ j = b / width k i := by
  rw [Nat.one_shiftLeft]
  constructor
  · rintro ⟨hj, rfl⟩
    refine ⟨putOffset_mod hi, ?_⟩
    rw [putOffset_eq hi, Nat.add_comm, Nat.add_mul_div_right _ _ width_pos,
      Nat.div_eq_of_lt (Nat.mod_lt _ width_pos), Nat.zero_add]
  · rintro ⟨hmod, rfl⟩
    rw [← width_mul hi, Nat.mul_comm] at hb
    exact ⟨Nat.div_lt_of_lt_mul hb, by rw [putOffset_eq hi, ← hmod, Nat.div_add_mod']⟩

/-! ### The rounds -/

def ranges (n sendSize r i : ℕ) : List Range :=
  (List.range (1 <<< i)).map fun j => ⟨putOffset n r i j * sendSize, sendSize⟩

def parcels (n sendSize r i : ℕ) : List Parcel := flagLast (ranges n sendSize r i)

variable {n : ℕ} {a : Action}

@[simp] theorem length_ranges : (ranges n sendSize r i).length = 1 <<< i := by
  rw [ranges, List.length_map, List.length_range]

theorem getElem?_ranges {range : Range} : (ranges n sendSize r i)[j]? = some range ↔
    j < 1 <<< i ∧ ⟨putOffset n r i j * sendSize, sendSize⟩ = range := by
  rw [ranges, List.getElem?_map, Option.map_eq_some_iff]
  simp [List.getElem?_eq_some_iff]

theorem notices_parcels : notices (parcels n sendSize r i) = 1 := by
  apply notices_flagLast
  rw [← List.length_pos_iff, length_ranges, Nat.one_shiftLeft]
  exact Nat.two_pow_pos i

theorem iputs_eq : iputs n sendSize r i = putAll (peer n r i) (parcels n sendSize r i) := by
  unfold iputs putAll parcels flagLast
  apply List.ext_getElem
  · simp
  · intro j _ _
    simp [ranges]

theorem mem_iputs : a ∈ iputs n sendSize r i ↔
    ∃ m ∈ parcels n sendSize r i, .put (peer n r i) m = a := by
  rw [iputs_eq, putAll, List.mem_map]

theorem rounds_part (i e : ℕ) (he : e < 3) :
    rounds n sendSize rtr r (3 * i + e + 1) = part n sendSize rtr r i e := by
  change part n sendSize rtr r ((3 * i + e) / 3) ((3 * i + e) % 3) = _
  rw [show (3 * i + e) / 3 = i by omega, show (3 * i + e) % 3 = e by omega]

theorem impl_eq : impl n sendSize rtr r =
    upTo (rounds n sendSize rtr) r (3 * nSteps n + 1) := by
  unfold impl
  induction nSteps n with
  | zero => rw [upTo_succ]; exact List.append_nil _
  | succ i ih =>
    rw [show 3 * (i + 1) + 1 = 3 * i + 1 + 1 + 1 + 1 by omega, upTo_succ, upTo_succ, upTo_succ,
      ← ih, rounds_part i 0 (by decide), rounds_part i 1 (by decide), rounds_part i 2 (by decide),
      List.range_succ (n := i), List.flatMap_append, List.flatMap_singleton]
    change _ ++ (_ ++ (_ ++ (_ ++ (_ ++ [])))) = _
    simp only [List.append_assoc, List.append_nil]

/-- Which round an action is in. -/
def InRound (n sendSize r t : ℕ) : Action → Prop
  | .sendCtrl _ => True
  | .recvCtrl q => ∃ i, t = 3 * i + 2 ∧ q = peer n r i
  | .put q m => ∃ i, t = 3 * i + 2 ∧ q = peer n r i ∧ m ∈ parcels n sendSize r i
  | .waitPut q c => ∃ i, t = 3 * i + 3 ∧ q = peer n r i ∧ c = 1 <<< i
  | .waitNotify q => ∃ i, t = 3 * i + 3 ∧ q = peer n r i

theorem inRound (h : a ∈ rounds n sendSize rtr r t) : InRound n sendSize r t a := by
  cases t with
  | zero =>
    change a ∈ setup n rtr r at h
    unfold setup at h
    split at h
    · cases h
    · obtain ⟨i, _, rfl⟩ := List.mem_map.mp h
      trivial
  | succ t =>
    obtain ⟨i, e, he, rfl⟩ : ∃ i e, e < 3 ∧ t = 3 * i + e := ⟨t / 3, t % 3, by omega, by omega⟩
    rw [rounds_part i e he] at h
    obtain rfl | rfl | rfl : e = 0 ∨ e = 1 ∨ e = 2 := by omega
    · cases rtr with
      | false => cases h
      | true =>
        obtain rfl := List.mem_singleton.mp h
        trivial
    · rw [part, List.mem_cons, mem_iputs] at h
      obtain rfl | ⟨m, hm, rfl⟩ := h
      · exact ⟨i, rfl, rfl⟩
      · exact ⟨i, rfl, rfl, hm⟩
    · change a ∈ [_, _] at h
      rw [List.mem_pair] at h
      obtain rfl | rfl := h
      · exact ⟨i, rfl, rfl, rfl⟩
      · exact ⟨i, rfl, rfl⟩

/-- Where only one round has something, it is that of this round. -/
theorem flatMap_one {α : Type*} {g : ℕ → List α} (hnone : ∀ i < t, i ≠ j → g i = []) :
    (List.range t).flatMap g = if j < t then g j else [] := by
  induction t with
  | zero => rfl
  | succ t ih =>
    rw [List.range_succ, List.flatMap_append, List.flatMap_singleton,
      ih fun i hi => hnone i (Nat.lt_succ_of_lt hi)]
    rcases Nat.lt_trichotomy j t with hlt | rfl | hlt
    · rw [if_pos hlt, if_pos (Nat.lt_succ_of_lt hlt), hnone t t.lt_succ_self hlt.ne',
        List.append_nil]
    · rw [if_neg (Nat.lt_irrefl j), if_pos j.lt_succ_self, List.nil_append]
    · rw [if_neg hlt.not_gt, if_neg (by omega), hnone t t.lt_succ_self hlt.ne, List.append_nil]

/-- All puts to a peer are those of one step. -/
theorem putsTo_peer (sendSize : ℕ) (rtr : Bool) (r : ℕ) (hi : i < k) (hlt : 3 * i + 2 < t)
    (ht : t ≤ 3 * k + 1) :
    putsTo r (upTo (rounds (2 ^ k) sendSize rtr) (peer (2 ^ k) r i) t) =
      parcels (2 ^ k) sendSize (peer (2 ^ k) r i) i := by
  rw [putsTo_upTo, flatMap_one (j := 3 * i + 2), if_pos hlt, rounds_part i 1 (by decide)]
  · change putsTo r (iputs _ _ _ i) = _
    rw [iputs_eq, putsTo_putAll, if_pos (peer_peer hi)]
  · intro t' ht' hne
    rw [putsTo, List.filterMap_eq_nil_iff]
    intro a ha
    cases a with
    | put q m =>
      obtain ⟨j, rfl, rfl, _⟩ := inRound ha
      apply if_neg
      intro heq
      obtain rfl : j = i := peer_inj (by omega) hi (heq.trans (peer_peer hi).symm)
      exact hne rfl
    | sendCtrl | recvCtrl | waitPut | waitNotify => rfl

/-- An action that is in one round, and there once, is done once. -/
theorem count_upTo_le (honce : (rounds n sendSize rtr r j).count a ≤ 1)
    (honly : ∀ i < t, a ∈ rounds n sendSize rtr r i → i = j) :
    (upTo (rounds n sendSize rtr) r t).count a ≤ 1 := by
  rw [count_upTo, flatMap_one (j := j)]
  · split
    · rwa [← List.count_eq_length_filter]
    · exact Nat.zero_le _
  · intro i hi hne
    exact filter_of_not_mem fun ha => hne (honly i hi ha)

theorem ctrlFrom_le (hi : i < k) (ht : t ≤ 3 * k + 1) :
    ctrlFrom (peer (2 ^ k) r i) (upTo (rounds (2 ^ k) sendSize rtr) r t) ≤ 1 := by
  apply count_upTo_le (j := 3 * i + 1 + 1)
  · rw [rounds_part i 1 (by decide), part, List.count_cons_self, List.count_eq_zero_of_not_mem]
    rw [mem_iputs]
    exact fun ⟨m, _, heq⟩ => nomatch heq
  · intro t' ht' hmem
    obtain ⟨j, rfl, heq⟩ := inRound hmem
    rw [peer_inj hi (by omega) heq]

theorem noticesFrom_le (hi : i < k) (ht : t ≤ 3 * k + 1) :
    noticesFrom (peer (2 ^ k) r i) (upTo (rounds (2 ^ k) sendSize rtr) r t) ≤ 1 := by
  apply count_upTo_le (j := 3 * i + 2 + 1)
  · rw [rounds_part i 2 (by decide)]
    simp [part]
  · intro t' ht' hmem
    obtain ⟨j, rfl, heq⟩ := inRound hmem
    rw [peer_inj hi (by omega) heq]

theorem mem_upTo {e : ℕ} (he : e < 3) (hlt : 3 * i + e + 1 < t)
    (ha : a ∈ part n sendSize rtr r i e) : a ∈ upTo (rounds n sendSize rtr) r t :=
  List.mem_flatMap.mpr ⟨_, List.mem_range.mpr hlt, by rwa [rounds_part i e he]⟩

/-- The peer of a step has told that it may be put to. -/
theorem ctrlTo_peer (hi : i < k) :
    1 ≤ ctrlTo r (upTo (rounds (2 ^ k) sendSize rtr) (peer (2 ^ k) r i) (3 * i + 2)) := by
  rw [ctrlTo, List.one_le_count_iff]
  cases rtr with
  | false =>
    refine List.mem_flatMap.mpr ⟨0, List.mem_range.mpr (by omega), List.mem_map.mpr ⟨i, ?_, ?_⟩⟩
    · rwa [nSteps, Nat.log2_two_pow, List.mem_range]
    · rw [peer_peer hi]
  | true =>
    refine mem_upTo (i := i) (e := 0) (by decide) (by omega) (List.mem_singleton.mpr ?_)
    rw [peer_peer hi]

theorem supplied : Supplied (2 ^ k) (3 * k + 1) (rounds (2 ^ k) sendSize rtr) where
  recvCtrl r hr t ht q hmem := by
    obtain ⟨i, rfl, rfl⟩ := inRound hmem
    have hi : i < k := by omega
    exact ⟨peer_lt hi hr, (ctrlFrom_le hi ht).trans (ctrlTo_peer hi)⟩
  waitPut r hr t ht q c hmem := by
    obtain ⟨i, rfl, rfl, rfl⟩ := inRound hmem
    have hi : i < k := by omega
    have hputs := putsTo_peer sendSize rtr (peer (2 ^ k) r i) hi (Nat.lt_succ_self _) ht.le
    rw [peer_peer hi] at hputs
    rw [hputs, parcels, length_flagLast, length_ranges]
    exact ⟨peer_lt hi hr, le_rfl⟩
  waitNotify r hr t ht q hmem := by
    obtain ⟨i, rfl, rfl⟩ := inRound hmem
    have hi : i < k := by omega
    refine ⟨peer_lt hi hr, (noticesFrom_le hi ht).trans ?_⟩
    rw [putsTo_peer _ _ _ hi (Nat.lt_succ_self _) ht.le, notices_parcels]

/-! ### What is put is known -/

def InBlock (sendSize b x : ℕ) : Prop := b * sendSize ≤ x ∧ x < b * sendSize + sendSize

variable {x : ℕ}

theorem nSteps_eq : nSteps (2 ^ k) = k := Nat.log2_two_pow

theorem impl_pow : impl (2 ^ k) sendSize rtr r =
    upTo (rounds (2 ^ k) sendSize rtr) r (3 * k + 1) := by
  rw [impl_eq, nSteps_eq]

theorem known (hr : r < 2 ^ k) (hb : b < 2 ^ k) (hi : i ≤ k)
    (hmod : b % width k i = r % width k i) (hx : InBlock sendSize b x) :
    Known (InBlock sendSize) (impl (2 ^ k) sendSize rtr) r
      (upTo (rounds (2 ^ k) sendSize rtr) r (3 * i + 1)) x := by
  induction i with
  | zero =>
    rw [width, Nat.sub_zero, Nat.mod_eq_of_lt hb, Nat.mod_eq_of_lt hr] at hmod
    exact .inl (hmod ▸ hx)
  | succ i ih =>
    by_cases hold : b % width k i = r % width k i
    · exact (ih (Nat.le_of_lt hi) hold).mono (upTo_mono (by omega))
    · have hput := (mod_peer_iff hi).mpr ⟨hmod, hold⟩
      obtain ⟨hj, hoff⟩ := (putOffset_iff (j := b / width k i) (Nat.le_of_lt hi) hb).mpr ⟨hput, rfl⟩
      obtain ⟨m, hm, hmr⟩ := exists_flagLast (getElem?_ranges.mpr ⟨hj, rfl⟩)
      rw [hoff] at hmr
      have hputs := putsTo_peer sendSize rtr r hi (show 3 * i + 2 < 3 * k + 1 by omega) le_rfl
      refine .inr ⟨peer (2 ^ k) r i, b / width k i, m, ?_, ?_, ?_⟩
      · rw [impl_pow, hputs]
        exact hm
      · rw [Parcel.Covers, hmr]
        exact hx
      · rw [impl_pow, hputs, parcels, notices_take_flagLast _ (by rwa [length_ranges]), noticesFrom,
          List.count_pos_iff]
        exact mem_upTo (i := i) (e := 2) (by decide) (by omega) (List.mem_of_getElem? (i := 1) rfl)

theorem covered : Covered (2 ^ k) (InBlock sendSize) (impl (2 ^ k) sendSize rtr) := by
  apply covered_of_rounds fun r _ => impl_pow
  intro r hr t ht q m hmem x hx
  obtain ⟨i, rfl, rfl, hm⟩ := inRound hmem
  have hi : i ≤ k := by omega
  obtain ⟨c, hc⟩ := List.mem_iff_getElem?.mp hm
  obtain ⟨hj, heq⟩ := getElem?_ranges.mp (getElem?_flagLast hc)
  rw [Parcel.Covers, ← heq] at hx
  exact (known hr (putOffset_lt hi hj) hi (putOffset_mod hi) hx).mono (upTo_mono (by omega))

/-! ### The exchange -/

/-- Peers name each other, every block of another rank comes in one put of one step and the own one
in none, only final bytes are put, every run ends, and at its end every rank has all blocks. -/
structure Gathers (n sendSize : ℕ) (rtr : Bool) : Prop where
  peers : ∀ r < n, ∀ i < nSteps n,
    peer n r i < n ∧ peer n r i ≠ r ∧ peer n (peer n r i) i = r
  once : ∀ r < n, ∀ b < n, b ≠ r → ∃! c : ℕ × ℕ,
    c.1 < nSteps n ∧ c.2 < 1 <<< c.1 ∧ putOffset n (peer n r c.1) c.1 c.2 = b
  others : ∀ r < n, ∀ i < nSteps n, ∀ j < 1 <<< i,
    putOffset n (peer n r i) i j < n ∧ putOffset n (peer n r i) i j ≠ r
  progress : ∀ (β : Type) (recvbuff : ℕ → ℕ → β) s,
    Reachable n (impl n sendSize rtr) recvbuff s → ¬ AllDone n (impl n sendSize rtr) s →
      ∃ s', Step n (impl n sendSize rtr) s s'
  stops : ∀ (β : Type) (recvbuff : ℕ → ℕ → β) (run : ℕ → Exchange β),
    Reachable n (impl n sendSize rtr) recvbuff (run 0) →
      ∃ t, ¬ Step n (impl n sendSize rtr) (run t) (run (t + 1))
  known : ∀ (β : Type) (recvbuff : ℕ → ℕ → β) s,
    Reachable n (impl n sendSize rtr) recvbuff s → ∀ r < n, ∀ q m,
      s.done r ++ [.put q m] <+: impl n sendSize rtr r → ∀ x, m.Covers x →
        s.memory r x = final sendSize recvbuff x
  gathered : ∀ (β : Type) (recvbuff : ℕ → ℕ → β) s,
    Reachable n (impl n sendSize rtr) recvbuff s → ∀ r < n, s.done r = impl n sendSize rtr r →
      ∀ x < n * sendSize, s.memory r x = final sendSize recvbuff x

variable {β : Type} {recvbuff : ℕ → ℕ → β} {s : Exchange β}

theorem holds (h : Reachable (2 ^ k) (impl (2 ^ k) sendSize rtr) recvbuff s) :
    Holds (InBlock sendSize) (final sendSize recvbuff) (impl (2 ^ k) sendSize rtr) s := by
  apply h.holds covered
  intro r x hx
  rw [final, Nat.div_eq_of_lt_le hx.1 (by rw [Nat.succ_mul]; exact hx.2)]

/-- A rank whose program is done has all blocks. -/
theorem gathered (h : Reachable (2 ^ k) (impl (2 ^ k) sendSize rtr) recvbuff s) (hr : r < 2 ^ k)
    (hdone : s.done r = impl (2 ^ k) sendSize rtr r) (hx : x < 2 ^ k * sendSize) :
    s.memory r x = final sendSize recvbuff x := by
  have hpos : 0 < sendSize := Nat.pos_of_mul_pos_left (Nat.zero_lt_of_lt hx)
  have hblock : InBlock sendSize (x / sendSize) x :=
    ⟨Nat.div_mul_le_self .., by
      rw [← Nat.succ_mul, Nat.mul_comm]
      exact Nat.lt_mul_div_succ x hpos⟩
  have hb := Nat.div_lt_of_lt_mul (Nat.mul_comm _ sendSize ▸ hx)
  have hall : x / sendSize % width k k = r % width k k := by
    rw [width, Nat.sub_self, Nat.pow_zero, Nat.mod_one, Nat.mod_one]
  exact (holds h).of_known h.inv (by rw [hdone, impl_pow]) (known hr hb le_rfl hall hblock)

theorem gathers : Gathers (2 ^ k) sendSize rtr where
  peers r hr i hi := by
    rw [nSteps_eq] at hi
    refine ⟨peer_lt hi hr, ?_, peer_peer hi⟩
    intro heq
    have hself := (mod_peer_iff (b := peer (2 ^ k) r i) (r := r) hi).mp rfl
    exact hself.2 (by rw [heq])
  once r hr b hb hne := by
    rw [nSteps_eq]
    obtain ⟨i, hi, hmod⟩ := exists_step hb hr hne
    obtain ⟨hj, hoff⟩ := (putOffset_iff hi.le hb).mpr ⟨hmod, rfl⟩
    refine ⟨(i, _), ⟨hi, hj, hoff⟩, ?_⟩
    rintro ⟨i', j'⟩ ⟨hi', hput⟩
    obtain ⟨hmod', hj'⟩ := (putOffset_iff hi'.le hb).mp hput
    obtain rfl : i' = i := step_unique hi' hi hmod' hmod
    exact congrArg _ hj'
  others r hr i hi j hj := by
    rw [nSteps_eq] at hi
    refine ⟨putOffset_lt hi.le hj, ?_⟩
    intro heq
    exact ((mod_peer_iff hi).mp (putOffset_mod hi.le)).2 (by rw [heq])
  progress _ _ _ h hnot := h.inv.progress (fun _ _ => impl_pow) supplied hnot
  stops _ _ run h := stops run h
  known _ _ s h r hr q m hnext x hx :=
    (holds h).of_known h.inv (List.prefix_refl _) (covered r hr _ q m hnext x hx)
  gathered _ _ s h r hr hdone x hx := gathered h hr hdone hx

/-- The puts of all steps are one short of a power of two. -/
theorem card_of_once (hn : 0 < n) (h : ∀ b < n, b ≠ 0 → ∃ c : ℕ × ℕ,
    c.1 < nSteps n ∧ c.2 < 1 <<< c.1 ∧ putOffset n (peer n 0 c.1) c.1 c.2 = b) :
    n ≤ 2 ^ nSteps n := by
  have hcard := Finset.card_le_card_of_surjOn (s := (Finset.range (nSteps n)).sigma fun i =>
      Finset.range (2 ^ i)) (t := (Finset.range n).erase 0)
    (fun c => putOffset n (peer n 0 c.1) c.1 c.2) (by
      intro b hb
      rw [Finset.mem_coe, Finset.mem_erase, Finset.mem_range] at hb
      obtain ⟨c, hi, hj, rfl⟩ := h b hb.2 hb.1
      rw [Nat.one_shiftLeft] at hj
      exact ⟨⟨c.1, c.2⟩, by simp [hi, hj], rfl⟩)
  rw [Finset.card_erase_of_mem (Finset.mem_range.mpr hn), Finset.card_range,
    Finset.card_sigma] at hcard
  simp only [Finset.card_range] at hcard
  rw [Nat.geomSum_eq le_rfl] at hcard
  have := Nat.two_pow_pos (nSteps n)
  omega

theorem gathers_iff (hn : 0 < n) : Gathers n sendSize rtr ↔ ∃ k, n = 2 ^ k := by
  constructor
  · intro h
    have hle := card_of_once hn fun b hb hne => (h.once 0 hn b hb hne).exists
    exact ⟨_, hle.antisymm (Nat.log2_self_le hn.ne')⟩
  · rintro ⟨k, rfl⟩
    exact gathers

theorem gathers_iff_eight : 0 < 8 ∧ (Gathers 8 1024 true ↔ ∃ k, 8 = 2 ^ k) :=
  ⟨by decide, gathers_iff (by decide)⟩

/-- A rank that is done has the same bytes as behind Bruck's exchange. -/
def SameAsBrucks (n sendSize : ℕ) (rtr : Bool) : Prop :=
  ∀ (β : Type) (recvbuff : ℕ → ℕ → β) s s', Reachable n (impl n sendSize rtr) recvbuff s →
    Reachable n (AllGatherBrucksFF.impl n sendSize) recvbuff s' →
      ∀ r < n, s.done r = impl n sendSize rtr r →
        s'.done r = AllGatherBrucksFF.impl n sendSize r →
          ∀ x < n * sendSize, s.memory r x = s'.memory r x

theorem same_as_brucks (k sendSize : ℕ) (rtr : Bool) : SameAsBrucks (2 ^ (k + 1)) sendSize rtr := by
  intro β recvbuff s s' h h' r hr hdone hdone' x hx
  have hp : 2 ≤ 2 ^ (k + 1) := Nat.le_self_pow k.succ_ne_zero 2
  have hknown := AllGatherBrucksFF.known_all hp hr hx
  rw [gathered h hr hdone hx]
  exact ((AllGatherBrucksFF.holds hp h').of_known h'.inv (by rw [hdone']) hknown).symm

end TorchComms.Algos.AllGatherRecDbl
