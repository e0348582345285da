import TorchComms.Algos.MultiPutNotify

/-! # The status words

A word is determined by what the host has written and by where its thread block is.
-/
namespace TorchComms.Algos.MultiPut

open Function Gpe

namespace Point

variable (n : Side → ℕ)

/-- The block takes part in an element of the list. -/
def inside : Point → Side → Bool
  | copy _, .put | notify _, .put | set _, .put | complete .put _, .put => true
  | gather _ _, .wait | complete .wait _, .wait => true
  | _, _ => false

/-- The number of elements of a list whose poll a block has left. -/
def polled (p : Point) (d : Side) : ℕ := p.walked n d + (p.inside d).toNat

/-- The number of elements of a list that a block has freed where they were revoked. -/
def freed : Point → Side → ℕ
  | free .put i, .put | reset .put i, .put | free .wait i, .wait | reset .wait i, .wait => i
  | free .wait _, .put | reset .wait _, .put | poll .wait _ _, .put | gather _ _, .put
  | complete .wait _, .put => n .put
  | finished, d => n d
  | _, _ => 0

/-- The number of puts whose copy a block has left behind. -/
def copied : Point → ℕ
  | notify i | set i | complete .put i => i + 1
  | p => p.walked n .put

theorem lt_walked_of_lt_freed {p : Point} {d : Side} {i : ℕ} (h : i < p.freed n d) (hi : i < n d) :
    i < p.walked n d := by
  rcases p with ⟨d' | d', _⟩ | _ | _ | _ | _ | ⟨d' | d'⟩ | ⟨d' | d'⟩ | ⟨d' | d'⟩ | _ <;> cases d <;>
    simp_all [freed, walked]

end Point

variable {G : Group} {r i g : ℕ} {d : Side} {e : KernelElem} {b : Block} {p : Point}

/-- Where a block can be. -/
def Place (G : Group) (b : Block) : Point → Prop
  | .copy i | .notify i | .set i | .complete .put i =>
    ∃ e, (G.list b.rank .put)[i]? = some e ∧ e.posted = true ∧ b.group < e.ngroups
  | .gather i _ | .complete .wait i =>
    b.group = 0 ∧ ∃ e, (G.list b.rank .wait)[i]? = some e ∧ e.posted = true
  | .reset d i => (d = .wait → b.group = 0) ∧
    ∃ e, (G.list b.rank d)[i]? = some e ∧ e.posted = false ∧ b.group < d.words e
  | .poll d _ _ | .free d _ => d = .wait → b.group = 0
  | .finished => True

/-- A step that leaves a block within an element, with the same copies made. -/
inductive Within : Point → Point → Prop
  | spin (d : Side) (i : ℕ) (a a' : Bool) : Within (.poll d i a) (.poll d i a')
  | notify (i : ℕ) : Within (.notify i) (.set i)
  | set (i : ℕ) : Within (.set i) (.complete .put i)
  | gather (i : ℕ) (ack ack' : ℕ → Ack) : Within (.gather i ack) (.gather i ack')
  | gathered (i : ℕ) (ack : ℕ → Ack) : Within (.gather i ack) (.complete .wait i)
  | load (d : Side) (i : ℕ) : Within (.free d i) (.reset d i)

namespace Within

variable {p' : Point} (n : Side → ℕ)

section

variable (h : Within p p')
include h

theorem polled : p'.polled n = p.polled n := by
  funext d
  cases h with
  | spin d' | load d' => cases d <;> cases d' <;> rfl
  | _ => cases d <;> rfl

theorem walked : p'.walked n = p.walked n := by
  funext d
  cases h with
  | spin d' | load d' => cases d <;> cases d' <;> rfl
  | _ => cases d <;> rfl

theorem freed : p'.freed n = p.freed n := by
  funext d
  cases h with
  | spin d' | load d' => cases d <;> cases d' <;> rfl
  | _ => cases d <;> rfl

theorem copied : p'.copied n = p.copied n := by
  cases h with
  | spin d' | load d' => cases d' <;> rfl
  | _ => rfl

end

end Within

/-- The word of a group that has an element. -/
def KernelElem.wordOf (e : KernelElem) (g written i walked freed : ℕ) : ElemStatus :=
  if written ≤ g then .INUSE
  else if e.posted then (if i < walked then .DONE else .POSTED)
  else if i < freed then .RESET else .REVOKED

theorem KernelElem.wordOf_congr {written walked walked' freed freed' : ℕ}
    (hwalked : e.posted = true → (i < walked' ↔ i < walked))
    (hfreed : e.posted = false → (i < freed' ↔ i < freed)) :
    e.wordOf g written i walked' freed' = e.wordOf g written i walked freed := by
  unfold wordOf
  cases hposted : e.posted with
  | true => simp only [if_true, hwalked hposted]
  | false => simp only [Bool.false_eq_true, if_false, hfreed hposted]

namespace Kernels

variable {s s' : Kernels}

/-- The words and copies of a block. -/
structure Own (G : Group) (s : Kernels) (b : Block) : Prop where
  place : Place G b (s.block b)
  polled : ∀ d i, (d = .wait → b.group = 0) → i < (s.block b).polled (G.lengths b.rank) d →
    b.group < s.written ⟨b.rank, d, i⟩
  status : ∀ d i e, (G.list b.rank d)[i]? = some e → b.group < d.words e →
    s.word b d i = e.wordOf b.group (s.written ⟨b.rank, d, i⟩) i
      ((s.block b).walked (G.lengths b.rank) d) ((s.block b).freed (G.lengths b.rank) d)
  idle : ∀ d i e, (G.list b.rank d)[i]? = some e → d.words e ≤ b.group → s.word b d i = .RESET
  copies : ∀ i e, (G.list b.rank .put)[i]? = some e → s.copies (⟨b.rank, .put, i⟩, b.group) =
    if e.posted = true ∧ i < (s.block b).copied (G.lengths b.rank) then 1 else 0

structure Words (G : Group) (s : Kernels) : Prop where
  written : ∀ (x : ElemId) (e : KernelElem), (G.list x.rank x.side)[x.index]? = some e →
    s.written x ≤ x.side.words e
  own : ∀ b : Block, b.group < G.numBlocks b.rank → Own G s b

theorem words_init : Words G (init G) where
  written := by simp [init]
  own := by
    intro b hg
    refine ⟨?_, ?_, ?_, ?_, ?_⟩
    · simp [init, Place]
    · rintro (_ | _) i - h <;> simp [init, Point.polled, Point.walked, Point.inside] at h
    · intro d i e he hg
      simp [init, word, he, hg, KernelElem.wordOf]
    · intro d i e he hg
      simp [init, word, he, hg]
    · simp [init, Point.copied, Point.walked]

theorem Own.congr (h : Own G s b) (hblock : s'.block b = s.block b)
    (hwritten : ∀ d i, s'.written ⟨b.rank, d, i⟩ = s.written ⟨b.rank, d, i⟩)
    (hword : ∀ d i, s'.word b d i = s.word b d i) (hcopies : ∀ i,
      s'.copies (⟨b.rank, .put, i⟩, b.group) = s.copies (⟨b.rank, .put, i⟩, b.group)) : Own G s' b := by
  obtain ⟨hplace, hpolled, hstatus, hidle, hcopied⟩ := h
  constructor
  · rwa [hblock]
  · simpa only [hblock, hwritten] using hpolled
  · simpa only [hblock, hwritten, hword] using hstatus
  · simpa only [hword] using hidle
  · simpa only [hblock, hcopies] using hcopied

@[simp] theorem block_goto : (s.goto b p).block b = p := update_self ..

variable {b' : Block}

theorem block_goto_of_ne (h : b' ≠ b) : (s.goto b p).block b' = s.block b' :=
  update_of_ne h ..

theorem lt_lengths (he : (G.list r d)[i]? = some e) : i < G.lengths r d :=
  (List.getElem?_eq_some_iff.1 he).1

theorem Words.block (h : Words G s) (hown : b.group < G.numBlocks b.rank → Own G s' b)
    (hwritten : s'.written = s.written) (hblock : ∀ b' ≠ b, s'.block b' = s.block b')
    (hword : ∀ b' ≠ b, ∀ d i, s'.word b' d i = s.word b' d i)
    (hcopies : ∀ b' ≠ b, ∀ i, s'.copies (⟨b'.rank, .put, i⟩, b'.group) =
      s.copies (⟨b'.rank, .put, i⟩, b'.group)) : Words G s' where
  written := by
    rw [hwritten]
    exact h.written
  own := by
    intro b' hg
    by_cases hb : b' = b
    · subst hb
      exact hown hg
    · exact (h.own b' hg).congr (hblock b' hb) (by simp [hwritten]) (hword b' hb) (hcopies b' hb)

theorem Words.goto (h : Words G s) (hown : b.group < G.numBlocks b.rank → Own G (s.goto b p) b) :
    Words G (s.goto b p) :=
  h.block hown rfl (fun _ hb => update_of_ne hb ..) (fun _ _ _ _ => rfl) fun _ _ _ => rfl

section

variable (h : Own G s b)
include h

/-- The block goes on past what does not concern its words and copies. -/
theorem Own.goto (hplace : Place G b p)
    (hpolled : ∀ d i, (d = .wait → b.group = 0) → i < p.polled (G.lengths b.rank) d →
      i < (s.block b).polled (G.lengths b.rank) d ∨ b.group < s.written ⟨b.rank, d, i⟩)
    (hwalked : ∀ d i e, (G.list b.rank d)[i]? = some e → e.posted = true → b.group < d.words e →
      (i < p.walked (G.lengths b.rank) d ↔ i < (s.block b).walked (G.lengths b.rank) d))
    (hfreed : ∀ d i e, (G.list b.rank d)[i]? = some e → e.posted = false → b.group < d.words e →
      (i < p.freed (G.lengths b.rank) d ↔ i < (s.block b).freed (G.lengths b.rank) d))
    (hcopied : ∀ i e, (G.list b.rank .put)[i]? = some e → e.posted = true →
      (i < p.copied (G.lengths b.rank) ↔ i < (s.block b).copied (G.lengths b.rank))) :
    Own G (s.goto b p) b where
  place := by rwa [block_goto]
  polled := by
    intro d i hd hi
    rw [block_goto] at hi
    exact (hpolled d i hd hi).elim (h.polled d i hd) id
  status := by
    intro d i e he hg
    rw [block_goto]
    refine (h.status d i e he hg).trans (KernelElem.wordOf_congr ?_ ?_).symm
    · exact fun hposted => hwalked d i e he hposted hg
    · exact fun hposted => hfreed d i e he hposted hg
  idle := h.idle
  copies := by
    intro i e he
    rw [block_goto]
    refine (h.copies i e he).trans ?_
    cases hposted : e.posted with
    | true => simp only [hcopied i e he hposted]
    | false => simp

theorem Own.answered (he : (G.list b.rank d)[i]? = some e)
    (hval : Answered (s.word b d i)) : b.group < d.words e ∧ b.group < s.written ⟨b.rank, d, i⟩ ∧
      (s.word b d i = .REVOKED ↔ e.posted = false) := by
  by_cases hg : b.group < d.words e
  · have hword := h.status d i e he hg
    unfold KernelElem.wordOf at hword
    rw [hword] at hval ⊢
    split_ifs at hval ⊢ with hw hposted hpassed <;> simp_all [Answered]
  · rw [h.idle d i e he (by omega)] at hval
    simp [Answered] at hval

theorem Own.within (hp : Within (s.block b) p) (hplace : Place G b p) : Own G (s.goto b p) b := by
  refine h.goto hplace ?_ ?_ ?_ ?_
  · rw [hp.polled]
    exact fun _ _ _ hj => .inl hj
  · rw [hp.walked]
    exact fun _ _ _ _ _ _ => Iff.rfl
  · rw [hp.freed]
    exact fun _ _ _ _ _ _ => Iff.rfl
  · rw [hp.copied]
    exact fun _ _ _ _ => Iff.rfl

variable {assigned : Bool}

theorem Own.skip (hb : s.block b = .poll d i assigned)
    (he : (G.list b.rank d)[i]? = some e) (hval : Answered (s.word b d i))
    (hposted : e.posted = false) : Own G (s.goto b (.poll d (i + 1) false)) b := by
  have hplace := h.place
  have hwritten := (h.answered he hval).2.1
  rw [hb] at hplace
  -- the skipped element is not a posted one
  have hne : ∀ j e', (G.list b.rank d)[j]? = some e' → e'.posted = true →
      (j < i + 1 ↔ j < i) := by
    intro j e' he' hposted'
    have hji : j ≠ i := by
      rintro rfl
      simp_all
    omega
  refine h.goto hplace ?_ ?_ ?_ ?_
  · rw [hb]
    intro d' j _ hj
    by_cases hji : d' = d ∧ j = i
    · obtain ⟨rfl, rfl⟩ := hji
      exact .inr hwritten
    · left
      cases d <;> cases d' <;> simp [Point.polled, Point.walked, Point.inside] at hji hj ⊢ <;> omega
  · rw [hb]
    intro d' j e' he' hposted' _
    cases d <;> cases d' <;> simp only [Point.walked]
    · exact hne j e' he' hposted'
    · exact hne j e' he' hposted'
  · rw [hb]
    intro d' j e' _ _ _
    cases d <;> cases d' <;> rfl
  · rw [hb]
    intro j e' he' hposted'
    cases d
    · exact hne j e' he' hposted'
    · rfl

theorem Own.enter (hb : s.block b = .poll d i assigned)
    (he : (G.list b.rank d)[i]? = some e) (hval : Answered (s.word b d i))
    (hposted : e.posted = true) : Own G (s.goto b (work i d)) b := by
  have hplace := h.place
  obtain ⟨hg, hwritten, -⟩ := h.answered he hval
  rw [hb] at hplace
  refine h.goto ?_ ?_ ?_ ?_ ?_
  · cases d with
    | put => exact ⟨e, he, hposted, hg⟩
    | wait => exact ⟨hplace rfl, e, he, hposted⟩
  · rw [hb]
    intro d' j _ hj
    by_cases hji : d' = d ∧ j = i
    · obtain ⟨rfl, rfl⟩ := hji
      exact .inr hwritten
    · left
      cases d <;> cases d' <;>
        simp [work, Point.polled, Point.walked, Point.inside] at hji hj ⊢ <;> omega
  · rw [hb]
    intro d' j e' _ _ _
    cases d <;> cases d' <;> rfl
  · rw [hb]
    intro d' j e' _ _ _
    cases d <;> cases d' <;> rfl
  · rw [hb]
    intro j e' _ _
    cases d <;> rfl

theorem Own.endWalk (hb : s.block b = .poll d i assigned)
    (he : (G.list b.rank d)[i]? = none) : Own G (s.goto b (.free d 0)) b := by
  have hplace := h.place
  rw [hb] at hplace
  have hlen : G.lengths b.rank d ≤ i := List.getElem?_eq_none_iff.1 he
  have hlt : ∀ j e', (G.list b.rank d)[j]? = some e' → (j < G.lengths b.rank d ↔ j < i) := by
    intro j e' he'
    have hj := lt_lengths he'
    omega
  refine h.goto hplace ?_ ?_ ?_ ?_
  · rw [hb]
    intro d' j _ hj
    left
    cases d <;> cases d' <;> simp [Point.polled, Point.walked, Point.inside] at hj ⊢ <;> omega
  · rw [hb]
    intro d' j e' he' _ _
    cases d <;> cases d' <;> simp only [Point.walked]
    · exact hlt j e' he'
    · exact hlt j e' he'
  · rw [hb]
    intro d' j e' _ _ _
    cases d <;> cases d' <;> rfl
  · rw [hb]
    intro j e' he' _
    cases d
    · exact hlt j e' he'
    · rfl

theorem Own.endFree (hb : s.block b = .free d i)
    (he : (G.list b.rank d)[i]? = none) : Own G (s.goto b (afterList b.group d)) b := by
  have hplace := h.place
  rw [hb] at hplace
  have hlen : G.lengths b.rank d ≤ i := List.getElem?_eq_none_iff.1 he
  have hlt : ∀ j e', (G.list b.rank d)[j]? = some e' → (j < G.lengths b.rank d ↔ j < i) := by
    intro j e' he'
    have hj := lt_lengths he'
    omega
  by_cases hg : b.group = 0
  · refine h.goto ?_ ?_ ?_ ?_ ?_
    · cases d <;> simp [afterList, hg, Place]
    · rw [hb]
      intro d' j _ hj
      left
      cases d <;> cases d' <;>
        simp [afterList, hg, Point.polled, Point.walked, Point.inside] at hj ⊢ <;> omega
    · rw [hb]
      intro d' j e' he' _ _
      cases d <;> cases d' <;> simp [afterList, hg, Point.walked]
    · rw [hb]
      intro d' j e' he' _ _
      cases d <;> cases d' <;> simp only [afterList, hg, if_true, Point.freed]
      · exact hlt j e' he'
      · exact hlt j e' he'
    · rw [hb]
      intro j e' _ _
      cases d <;> simp [afterList, hg, Point.copied, Point.walked]
  · cases d with
    | wait => exact absurd (hplace rfl) hg
    | put =>
      -- the other blocks have no words of waits
      have hwait : ∀ d' (e' : KernelElem), b.group < Side.words d' e' → d' = .put := by
        rintro (_ | _) e' hlt
        · rfl
        · simp only [Side.words] at hlt
          omega
      refine h.goto ?_ ?_ ?_ ?_ ?_
      · simp [afterList, hg, Place]
      · rw [hb]
        intro d' j hd hj
        left
        cases d' with
        | put => simpa [afterList, hg, Point.polled, Point.walked, Point.inside] using hj
        | wait => exact absurd (hd rfl) hg
      · rw [hb]
        intro d' j e' he' _ hlt'
        obtain rfl := hwait d' e' hlt'
        simp [afterList, hg, Point.walked]
      · rw [hb]
        intro d' j e' he' _ hlt'
        obtain rfl := hwait d' e' hlt'
        simpa [afterList, hg, Point.freed] using hlt j e' he'
      · rw [hb]
        intro j e' _ _
        simp [afterList, hg, Point.copied, Point.walked]

theorem Own.freeing (hb : s.block b = .free d i)
    (he : (G.list b.rank d)[i]? = some e) : b.group < s.written ⟨b.rank, d, i⟩ := by
  have hplace := h.place
  rw [hb] at hplace
  refine h.polled d i hplace ?_
  have hlt := lt_lengths he
  rw [hb]
  cases d <;> simpa [Point.polled, Point.walked, Point.inside] using hlt

theorem Own.load (hwritten : ∀ e, (G.list b.rank d)[i]? = some e →
      s.written ⟨b.rank, d, i⟩ ≤ d.words e) (hb : s.block b = .free d i)
    (he : (G.list b.rank d)[i]? = some e) :
    Own G (s.goto b (if s.word b d i = .REVOKED then .reset d i else .free d (i + 1))) b := by
  have hplace := h.place
  have hpolled := h.freeing hb he
  have hg : b.group < d.words e := Nat.lt_of_lt_of_le hpolled (hwritten e he)
  have hword := h.status d i e he hg
  rw [hb] at hplace hword
  split_ifs with hrevoked
  · have hposted : e.posted = false := by
      rw [hrevoked, KernelElem.wordOf, if_neg (by omega)] at hword
      cases hposted : e.posted with
      | true => split_ifs at hword
      | false => rfl
    refine h.within ?_ ⟨hplace, e, he, hposted, hg⟩
    rw [hb]
    exact .load d i
  · have hposted : e.posted = true := by
      cases hposted : e.posted with
      | true => rfl
      | false =>
        refine absurd (hword.trans ?_) hrevoked
        rw [KernelElem.wordOf, if_neg (by omega), hposted]
        cases d <;> simp [Point.freed]
    have hne : ∀ j e', (G.list b.rank d)[j]? = some e' → e'.posted = false →
        (j < i + 1 ↔ j < i) := by
      intro j e' he' hposted'
      have hji : j ≠ i := by
        rintro rfl
        simp_all
      omega
    refine h.goto hplace ?_ ?_ ?_ ?_
    · rw [hb]
      intro d' j _ hj
      left
      cases d <;> cases d' <;> exact hj
    · rw [hb]
      intro d' j e' _ _ _
      cases d <;> cases d' <;> rfl
    · rw [hb]
      intro d' j e' he' hposted' _
      cases d <;> cases d' <;> simp only [Point.freed]
      · exact hne j e' he' hposted'
      · exact hne j e' he' hposted'
    · rw [hb]
      intro j e' _ _
      cases d <;> rfl

theorem Own.copy (hb : s.block b = .copy i) :
    Own G { s.goto b (.notify i) with
      copies := update s.copies (⟨b.rank, .put, i⟩, b.group)
        (s.copies (⟨b.rank, .put, i⟩, b.group) + 1) } b := by
  have hplace := h.place
  have hpolled := h.polled
  have hstatus := h.status
  have hcopies := h.copies
  rw [hb] at hplace hpolled hstatus hcopies
  constructor
  · rwa [block_goto]
  · intro d j hd hj
    rw [block_goto] at hj
    exact hpolled d j hd (by cases d <;> exact hj)
  · intro d j e' he' hg
    rw [block_goto]
    refine (hstatus d j e' he' hg).trans ?_
    cases d <;> rfl
  · exact h.idle
  · intro j e' he'
    have hold := hcopies j e' he'
    rw [block_goto]
    by_cases hji : j = i
    · subst hji
      obtain ⟨e, he, hposted, -⟩ := hplace
      rw [he, Option.some.injEq] at he'
      subst he'
      simp only [hposted, Point.copied, Point.walked, lt_irrefl, and_false, if_false] at hold
      simp [Point.copied, hposted, hold]
    · refine (update_of_ne (by simpa using hji) ..).trans (hold.trans ?_)
      refine if_congr (and_congr_right fun _ => ?_) rfl rfl
      simp only [Point.copied, Point.walked]
      omega

/-- A block that writes its word of an element and goes on. -/
theorem Own.store {v : ElemStatus} (he : (G.list b.rank d)[i]? = some e)
    (hg : b.group < d.words e) (hplace : Place G b p)
    (hpolled : ∀ d' j, j < p.polled (G.lengths b.rank) d' →
      j < (s.block b).polled (G.lengths b.rank) d')
    (hv : e.wordOf b.group (s.written ⟨b.rank, d, i⟩) i (p.walked (G.lengths b.rank) d)
      (p.freed (G.lengths b.rank) d) = v) (hwalked : ∀ d' j, ¬(d' = d ∧ j = i) →
      (j < p.walked (G.lengths b.rank) d' ↔ j < (s.block b).walked (G.lengths b.rank) d'))
    (hfreed : ∀ d' j, ¬(d' = d ∧ j = i) →
      (j < p.freed (G.lengths b.rank) d' ↔ j < (s.block b).freed (G.lengths b.rank) d'))
    (hcopied : p.copied (G.lengths b.rank) = (s.block b).copied (G.lengths b.rank)) :
    Own G { s.goto b p with status := update s.status (⟨b.rank, d, i⟩, b.group) v } b where
  place := by rwa [block_goto]
  polled := by
    intro d' j hd hj
    rw [block_goto] at hj
    exact h.polled d' j hd (hpolled d' j hj)
  status := by
    intro d' j e' he' hg'
    rw [block_goto]
    by_cases hji : d' = d ∧ j = i
    · obtain ⟨rfl, rfl⟩ := hji
      rw [he, Option.some.injEq] at he'
      subst he'
      exact (update_self ..).trans hv.symm
    · refine (update_of_ne (by simpa using hji) ..).trans ?_
      refine (h.status d' j e' he' hg').trans (KernelElem.wordOf_congr ?_ ?_).symm
      · exact fun _ => hwalked d' j hji
      · exact fun _ => hfreed d' j hji
  idle := by
    intro d' j e' he' hg'
    refine (update_of_ne ?_ ..).trans (h.idle d' j e' he' hg')
    intro heq
    simp only [Prod.mk.injEq, ElemId.mk.injEq, true_and, and_true] at heq
    obtain ⟨rfl, rfl⟩ := heq
    rw [he, Option.some.injEq] at he'
    subst he'
    omega
  copies := by
    intro j e' he'
    rw [block_goto, hcopied]
    exact h.copies j e' he'

theorem Own.complete (hb : s.block b = .complete d i) :
    Own G { s.goto b (.poll d (i + 1) false) with
      status := update s.status (⟨b.rank, d, i⟩, b.group) .DONE } b := by
  have hplace := h.place
  have hpolled := h.polled
  rw [hb] at hplace hpolled
  obtain ⟨e, he, hposted, hg, hgroup⟩ : ∃ e, (G.list b.rank d)[i]? = some e ∧ e.posted = true ∧
      b.group < d.words e ∧ (d = .wait → b.group = 0) := by
    cases d with
    | put =>
      obtain ⟨e, he, hposted, hg⟩ := hplace
      exact ⟨e, he, hposted, hg, by simp⟩
    | wait =>
      obtain ⟨hg, e, he, hposted⟩ := hplace
      exact ⟨e, he, hposted, by simp [Side.words, hg], fun _ => hg⟩
  have hwritten : b.group < s.written ⟨b.rank, d, i⟩ := by
    refine hpolled d i hgroup ?_
    cases d <;> simp [Point.polled, Point.walked, Point.inside]
  refine h.store he hg hgroup ?_ ?_ ?_ ?_ ?_
  · rw [hb]
    intro d' j hj
    cases d <;> cases d' <;> exact hj
  · rw [KernelElem.wordOf, if_neg (by omega), hposted]
    cases d <;> simp [Point.walked]
  · rw [hb]
    intro d' j hji
    cases d <;> cases d' <;> simp [Point.walked] at hji ⊢ <;> omega
  · rw [hb]
    intro d' j hji
    cases d <;> cases d' <;> rfl
  · rw [hb]
    cases d <;> rfl

theorem Own.reset (hb : s.block b = .reset d i) :
    Own G { s.goto b (.free d (i + 1)) with
      status := update s.status (⟨b.rank, d, i⟩, b.group) .RESET } b := by
  have hplace := h.place
  have hpolled := h.polled
  rw [hb] at hplace hpolled
  obtain ⟨hgroup, e, he, hposted, hg⟩ := hplace
  have hwritten : b.group < s.written ⟨b.rank, d, i⟩ := by
    refine hpolled d i hgroup ?_
    have hlt := lt_lengths he
    cases d <;> simpa [Point.polled, Point.walked, Point.inside] using hlt
  refine h.store he hg hgroup ?_ ?_ ?_ ?_ ?_
  · rw [hb]
    intro d' j hj
    cases d <;> cases d' <;> exact hj
  · rw [KernelElem.wordOf, if_neg (by omega), hposted]
    cases d <;> simp [Point.freed]
  · rw [hb]
    intro d' j hji
    cases d <;> cases d' <;> rfl
  · rw [hb]
    intro d' j hji
    cases d <;> cases d' <;> simp [Point.freed] at hji ⊢ <;> omega
  · rw [hb]
    cases d <;> rfl

theorem Own.host {x : ElemId} (he : (G.list x.rank x.side)[x.index]? = some e)
    (hw : s.written x < x.side.words e) :
    Own G { s with
      status := update s.status (x, s.written x) (if e.posted then .POSTED else .REVOKED)
      written := update s.written x (s.written x + 1) } b where
  __ := h
  polled := by
    intro d i hd hi
    have hold := h.polled d i hd hi
    simp only [update_apply]
    split_ifs with hx
    · rw [hx] at hold
      omega
    · exact hold
  status := by
    intro d i e' he' hg
    have hold := h.status d i e' he' hg
    dsimp only [word] at hold ⊢
    by_cases hx : (⟨b.rank, d, i⟩ : ElemId) = x
    · subst hx
      rw [he, Option.some.injEq] at he'
      subst he'
      rw [update_self]
      by_cases hgroup : b.group = s.written ⟨b.rank, d, i⟩
      · -- the block has not come past this word
        have hgroup' : d = .wait → b.group = 0 := by
          rintro rfl
          simpa [Side.words] using hg
        have hwalked : ¬i < (s.block b).walked (G.lengths b.rank) d := by
          intro hi
          have hlt := h.polled d i hgroup' (Nat.lt_add_right _ hi)
          omega
        have hfreed : ¬i < (s.block b).freed (G.lengths b.rank) d := fun hi =>
          hwalked (Point.lt_walked_of_lt_freed _ hi (lt_lengths he))
        rw [hgroup, update_self, KernelElem.wordOf, if_neg (Nat.not_succ_le_self _),
          if_neg hwalked, if_neg hfreed]
      · refine Eq.trans ?_ (hold.trans ?_)
        · exact update_of_ne (by simpa using hgroup) ..
        · have hiff : s.written ⟨b.rank, d, i⟩ ≤ b.group ↔
              s.written ⟨b.rank, d, i⟩ + 1 ≤ b.group := by omega
          simp only [KernelElem.wordOf, hiff]
    · rw [update_of_ne hx]
      refine Eq.trans ?_ hold
      exact update_of_ne (by simp [hx]) ..
  idle := by
    intro d i e' he' hg
    refine (update_of_ne ?_ ..).trans (h.idle d i e' he' hg)
    rintro heq
    obtain ⟨rfl, hgroup⟩ := Prod.mk.injEq .. ▸ heq
    rw [he, Option.some.injEq] at he'
    subst he'
    simp only at hgroup hw
    omega

theorem Own.posted (he : (G.list b.rank d)[i]? = some e)
    (hval : Answered (s.word b d i)) {assigned aborted : Bool}
    (hrevoked : revoked (s.word b d i) assigned aborted = false) : e.posted = true := by
  have hiff := (h.answered he hval).2.2
  cases hposted : e.posted with
  | true => rfl
  | false =>
    rw [hiff.2 hposted] at hrevoked
    simp [revoked] at hrevoked

theorem Own.revoked {assigned aborted : Bool}
    (hb : s.block b = .poll d i assigned) (hop : s.Meets (.block b aborted))
    (he : (G.list b.rank d)[i]? = some e) (hval : Answered (s.word b d i))
    (hskip : revoked (s.word b d i) assigned aborted = true ∨ (d = .put ∧ e.ngroups ≤ b.group)) :
    e.posted = false := by
  obtain ⟨hg, -, hiff⟩ := h.answered he hval
  obtain hrevoked | ⟨rfl, hle⟩ := hskip
  · cases hval with
    | inr hval => exact hiff.1 hval
    | inl hval =>
      cases assigned with
      | true => simp [MultiPut.revoked, hval] at hrevoked
      | false =>
        -- the variable was not assigned, and reads as false
        have haborted : aborted = false := hop d i hb hval
        simp [MultiPut.revoked, hval, haborted] at hrevoked
  · exact absurd hg (Nat.not_lt.2 hle)

end

theorem word_ne {d' : Side} {j : ℕ} (h : b' ≠ b) :
    ((⟨b'.rank, d', j⟩ : ElemId), b'.group) ≠ (⟨b.rank, d, i⟩, b.group) := by
  intro heq
  simp only [Prod.mk.injEq, ElemId.mk.injEq] at heq
  obtain ⟨⟨hrank, -⟩, hgroup⟩ := heq
  apply h
  cases b
  cases b'
  simp_all

theorem Words.step {op : Op} (h : Words G s) (hstep : s.Step G op s') (hop : s.Meets op) :
    Words G s' := by
  cases hstep with
  | host x e he hw =>
    refine ⟨?_, fun b hg => (h.own b hg).host he hw⟩
    intro y e' he'
    have hold := h.written y e' he'
    simp only [update_apply]
    split_ifs with hy
    · subst hy
      rw [he, Option.some.injEq] at he'
      subst he'
      exact hw
    · exact hold
  | spin b d i assigned aborted e hg hb he hval =>
    have hplace := (h.own b hg).place
    rw [hb] at hplace
    refine h.goto fun hg => (h.own b hg).within ?_ hplace
    rw [hb]
    exact .spin ..
  | skip b d i assigned aborted e hg hb he hval hskip =>
    have hposted := (h.own b hg).revoked hb hop he hval hskip
    exact h.goto fun hg => (h.own b hg).skip hb he hval hposted
  | enter b d i assigned aborted e hg hb he hval hrevoked hgroup =>
    have hposted := (h.own b hg).posted he hval hrevoked
    exact h.goto fun hg => (h.own b hg).enter hb he hval hposted
  | endWalk b d i assigned aborted hg hb he => exact h.goto fun hg => (h.own b hg).endWalk hb he
  | endFree b d i aborted hg hb he => exact h.goto fun hg => (h.own b hg).endFree hb he
  | load b d i aborted e hg hb he =>
    exact h.goto fun hg => (h.own b hg).load (fun e he => h.written ⟨b.rank, d, i⟩ e he) hb he
  | notify b i aborted e hg hb he hslot =>
    have hplace := (h.own b hg).place
    rw [hb] at hplace
    refine h.goto fun hg => (h.own b hg).within ?_ hplace
    rw [hb]
    exact .notify i
  | gathered b i ack aborted e hg hb he hack =>
    have hplace := (h.own b hg).place
    rw [hb] at hplace
    refine h.goto fun hg => (h.own b hg).within ?_ hplace
    rw [hb]
    exact .gathered i ack
  | see r j i ack e hb he hj hack hslot =>
    refine h.goto fun hg => ?_
    have hplace := (h.own ⟨r, 0⟩ hg).place
    rw [hb] at hplace
    refine (h.own ⟨r, 0⟩ hg).within ?_ hplace
    rw [hb]
    exact .gather ..
  | copy b i aborted hg hb =>
    refine h.block (b := b) (fun hg => (h.own b hg).copy hb) rfl ?_ ?_ ?_
    · exact fun b' hne => update_of_ne hne ..
    · exact fun _ _ _ _ => rfl
    · intro b' hne j
      refine update_of_ne ?_ ..
      exact word_ne hne
  | set b i aborted e hg hb he =>
    have hplace := (h.own b hg).place
    rw [hb] at hplace
    refine h.block (b := b) (fun hg => ?_) rfl ?_ ?_ ?_
    · have hp : Within (s.block b) (.complete .put i) := by
        rw [hb]
        exact .set i
      exact ((h.own b hg).within hp hplace).congr rfl (fun _ _ => rfl) (fun _ _ => rfl) fun _ => rfl
    · exact fun b' hne => update_of_ne hne ..
    · exact fun _ _ _ _ => rfl
    · exact fun _ _ _ => rfl
  | take r j i ack e hb he hj hack =>
    refine h.block (b := ⟨r, 0⟩) (fun hg => ?_) rfl ?_ ?_ ?_
    · have hplace := (h.own ⟨r, 0⟩ hg).place
      rw [hb] at hplace
      have hp : Within (s.block ⟨r, 0⟩) (.gather i (update ack j .reset)) := by
        rw [hb]
        exact .gather ..
      exact ((h.own ⟨r, 0⟩ hg).within hp hplace).congr rfl (fun _ _ => rfl) (fun _ _ => rfl)
        fun _ => rfl
    · exact fun b' hne => update_of_ne hne ..
    · exact fun _ _ _ _ => rfl
    · exact fun _ _ _ => rfl
  | complete b d i aborted hg hb =>
    refine h.block (b := b) (fun hg => (h.own b hg).complete hb) rfl ?_ ?_ ?_
    · exact fun b' hne => update_of_ne hne ..
    · exact fun b' hne d' j => update_of_ne (word_ne hne) ..
    · exact fun _ _ _ => rfl
  | reset b d i aborted hg hb =>
    refine h.block (b := b) (fun hg => (h.own b hg).reset hb) rfl ?_ ?_ ?_
    · exact fun b' hne => update_of_ne hne ..
    · exact fun b' hne d' j => update_of_ne (word_ne hne) ..
    · exact fun _ _ _ => rfl

end Kernels

end TorchComms.Algos.MultiPut
