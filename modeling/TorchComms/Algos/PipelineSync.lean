import TorchComms.Algos.RailOrder

/-! # How far the ranks of the pipeline are

The stream and the GPE thread of a rank are at most one execution apart, the streams of a node at
most one barrier, and a thread takes no more notifications than its upper neighbour has puts.
-/
namespace TorchComms.Algos.AllGatherP

variable {c : Config} {β : Type}

/-! ### What a position says -/

namespace StreamPc

/-- The barriers that the execution still comes to. -/
def ahead (c : Config) : StreamPc → ℕ
  | .idle => 0
  | .hold | .copyToSelf => c.nNodes + 1
  | .barrier round => c.nNodes + 1 - round
  | .await round | .copy round _ | .waitPost round => c.nNodes - round
  | .pipeEnd => 1

def awaiting : StreamPc → ℕ
  | .await _ => 1
  | _ => 0

/-- The posts that the stream has waited for. -/
def seen (c : Config) : StreamPc → ℕ
  | .idle | .pipeEnd => c.nNodes - 1
  | .hold => 0
  | .copyToSelf => if c.nLocalRanks = 1 then c.nNodes - 1 else 0
  | .barrier round | .await round => min round (c.nNodes - 1)
  | .copy round _ | .waitPost round => round

/-- The copy of a round to a local peer has been made. -/
def Sent (round p : ℕ) : StreamPc → Prop
  | .idle | .pipeEnd => True
  | .hold | .copyToSelf => False
  | .barrier k | .await k => round < k
  | .copy k q => round < k ∨ round = k ∧ p < q
  | .waitPost k => round ≤ k

/-- The flag has been reset. -/
def reset (c : Config) : StreamPc → Bool
  | .idle => true
  | .barrier round | .await round => round = c.nNodes
  | _ => false

def Valid (c : Config) : StreamPc → Prop
  | .idle | .copyToSelf => True
  | .hold => 1 < c.nNodes ∧ c.nLocalRanks = 1
  | .barrier round | .await round => 1 < c.nLocalRanks ∧ round ≤ c.nNodes
  | .copy round p => 1 < c.nLocalRanks ∧ round < c.nNodes ∧ 1 ≤ p ∧ p < c.nLocalRanks
  | .waitPost step => 1 < c.nLocalRanks ∧ step + 1 < c.nNodes
  | .pipeEnd => 1 < c.nLocalRanks

variable {pc : StreamPc} {round p : ℕ}

theorem Valid.ahead_le (h : pc.Valid c) : pc.ahead c + pc.awaiting ≤ c.nNodes + 1 := by
  cases pc <;> simp only [Valid, ahead, awaiting] at h ⊢ <;> omega

theorem not_sent_of_ahead (h : c.nNodes + 1 ≤ pc.ahead c + pc.awaiting) : ¬ pc.Sent round p := by
  have hN := c.nNodes_pos
  cases pc <;> simp only [Sent, ahead, awaiting, not_false_eq_true] at h ⊢ <;> omega

theorem Valid.sent_of_ahead (h : pc.Valid c) (hzero : pc.ahead c = 0) (hround : round < c.nNodes) :
    pc.Sent round p := by
  cases pc <;> simp only [Valid, Sent, ahead] at h hzero ⊢ <;> omega

theorem seen_of_reset (h : pc.reset c) : pc.seen c = c.nNodes - 1 := by
  cases pc <;> simp only [reset, seen, decide_eq_true_eq, Bool.false_eq_true] at h ⊢ <;> omega

end StreamPc

namespace GpePc

/-- The puts of the run that have been issued. -/
def issued (c : Config) : GpePc → ℕ
  | .idle | .waitPuts => c.nNodes - 1
  | .isendCtrl | .irecvCtrl => 0
  | .iput step => step
  | .waitNotify step | .post step => step + 1

/-- The notifications of the run that have been taken. -/
def consumed (c : Config) : GpePc → ℕ
  | .idle | .waitPuts => c.nNodes - 1
  | .isendCtrl | .irecvCtrl => 0
  | .iput step | .waitNotify step => step
  | .post step => step + 1

def posted (c : Config) : GpePc → ℕ
  | .idle | .waitPuts => c.nNodes - 1
  | .isendCtrl | .irecvCtrl => 0
  | .iput step | .waitNotify step | .post step => step

/-- One before the own control message has been sent. -/
def unsent : GpePc → ℕ
  | .isendCtrl => 1
  | _ => 0

/-- One before the control message of the lower neighbour has been taken. -/
def untaken : GpePc → ℕ
  | .isendCtrl | .irecvCtrl => 1
  | _ => 0

def Valid (c : Config) : GpePc → Prop
  | .iput step | .waitNotify step | .post step => step + 1 < c.nNodes
  | _ => True

theorem posted_le_consumed (pc : GpePc) : pc.posted c ≤ pc.consumed c := by
  cases pc <;> simp [posted, consumed]

theorem issued_le (pc : GpePc) : pc.issued c ≤ pc.consumed c + 1 := by
  cases pc <;> simp [issued, consumed]

theorem Valid.issued_le {pc : GpePc} (h : pc.Valid c) : pc.issued c ≤ c.nNodes - 1 := by
  cases pc <;> simp only [Valid, issued] at h ⊢ <;> omega

theorem Valid.of_posted {pc : GpePc} (h : pc.Valid c) (hN : 1 < c.nNodes)
    (hle : c.nNodes - 1 ≤ pc.posted c) : pc = .idle ∨ pc = .waitPuts := by
  cases pc <;> simp only [Valid, posted, reduceCtorEq, or_true, true_or] at h hle ⊢ <;> omega

end GpePc

/-- The posts for the execution on the stream. -/
def Rank.posts (c : Config) (x : Rank) : ℕ := if x.runs = x.calls then x.gpe.posted c else 0

/-- What holds of a rank and its puts in flight. -/
structure RankOk (j : Calls c β) (r : ℕ) (x : Rank) (flight : List Put) : Prop where
  stream : x.stream.Valid c
  gpe : x.gpe.Valid c
  inside : x.stream ≠ .idle → 0 < x.calls
  single : c.nNodes = 1 → x.runs = 0
  unstarted : x.runs = 0 → x.gpe = .idle
  runs_le : x.runs ≤ x.calls
  calls_le : 1 < c.nNodes → x.calls ≤ x.runs + 1
  late : x.runs < x.calls → flight = [] ∧ (x.gpe = .idle ∨ x.gpe = .waitPuts)
  seen : 0 < x.calls → x.stream.seen c ≤ x.posts c
  flag : 1 < c.nLocalRanks →
    x.postFlag = if x.stream.reset c then -1 else (x.posts c : ℤ) - 1
  flying : ∃ m ≤ x.gpe.issued c,
    flight = (List.range' m (x.gpe.issued c - m)).map (j.put (x.runs - 1) r)
  arrived : 1 < c.nLocalRanks → x.arrived + x.stream.ahead c = x.calls * (c.nNodes + 1)

namespace RankOk

variable {j : Calls c β} {r : ℕ} {x : Rank} {flight : List Put} {round p step : ℕ}

theorem length_le (h : RankOk j r x flight) : flight.length ≤ x.gpe.issued c := by
  rcases h.flying with ⟨m, hm, rfl⟩
  rw [List.length_map, List.length_range']
  omega

theorem runs_eq (h : RankOk j r x flight) (hcalls : 0 < x.calls) (hseen : 0 < x.stream.seen c) :
    x.runs = x.calls ∧ x.stream.seen c ≤ x.gpe.posted c := by
  have hle := h.seen hcalls
  unfold Rank.posts at hle
  split at hle
  · rename_i heq
    exact ⟨heq, hle⟩
  · omega

theorem posts_of_lt (h : x.runs < x.calls) : x.posts c = 0 := if_neg h.ne

theorem posts_of_eq (h : x.runs = x.calls) : x.posts c = x.gpe.posted c := if_pos h

/-! ### The stream -/

theorem runs_of_idle (h : RankOk j r x flight) (hpc : x.stream = .idle) (hN : 1 < c.nNodes) :
    x.runs = x.calls ∧ (x.gpe = .idle ∨ x.gpe = .waitPuts) := by
  rcases Nat.eq_zero_or_pos x.calls with hzero | hpos
  · have hruns := h.runs_le
    exact ⟨by omega, Or.inl (h.unstarted (by omega))⟩
  · have hseen : x.stream.seen c = c.nNodes - 1 := by
      rw [hpc]
      rfl
    rcases h.runs_eq hpos (by omega) with ⟨hruns, hposted⟩
    rw [hseen] at hposted
    exact ⟨hruns, h.gpe.of_posted hN hposted⟩

theorem start (h : RankOk j r x []) (hpc : x.stream = .idle) :
    RankOk j r { x with
      calls := x.calls + 1
      stream := if 1 < c.nNodes ∧ c.nLocalRanks = 1 then .hold else .copyToSelf } [] := by
  have hN := c.nNodes_pos
  have hruns := h.runs_le
  have hflag := h.flag
  have harrived := h.arrived
  rw [hpc] at hflag harrived
  have hposts : Rank.posts c { x with
      calls := x.calls + 1
      stream := if 1 < c.nNodes ∧ c.nLocalRanks = 1 then .hold else .copyToSelf } = 0 :=
    posts_of_lt (Nat.lt_succ_of_le hruns)
  exact
    { stream := by
        split
        · assumption
        · trivial
      __ := h
      inside := fun _ => Nat.succ_pos _
      runs_le := Nat.le_succ_of_le hruns
      calls_le := by
        intro hlt
        rw [(h.runs_of_idle hpc hlt).1]
      late := by
        intro _
        refine ⟨rfl, ?_⟩
        rcases Nat.lt_or_ge 1 c.nNodes with hlt | hle
        · exact (h.runs_of_idle hpc hlt).2
        · exact Or.inl (h.unstarted (h.single (by omega)))
      seen := by
        intro _
        rw [hposts]
        split
        · exact le_rfl
        · simp only [StreamPc.seen]
          split <;> omega
      flag := by
        intro hlt
        rw [hposts, if_neg (fun hone => by omega), hflag hlt]
        rfl
      arrived := by
        intro hlt
        have hold := harrived hlt
        rw [if_neg (fun hone => by omega), Nat.succ_mul]
        simp only [StreamPc.ahead] at hold ⊢
        omega }

section

variable (h : RankOk j r x flight)
include h

variable {f : ℤ}

theorem moveStream {pc : StreamPc} {n : ℕ}
    (hcalls : 0 < x.calls) (hvalid : pc.Valid c) (hseen : pc.seen c ≤ x.posts c)
    (hflag : 1 < c.nLocalRanks → f = if pc.reset c then -1 else (x.posts c : ℤ) - 1)
    (harrived : 1 < c.nLocalRanks → n + pc.ahead c = x.arrived + x.stream.ahead c) :
    RankOk j r { x with stream := pc, arrived := n, postFlag := f } flight :=
  { h with
    stream := hvalid
    inside := fun _ => hcalls
    seen := fun _ => hseen
    flag := hflag
    arrived := fun hlt => (harrived hlt).trans (h.arrived hlt) }

/-! ### The thread -/

theorem startGpe (hN : 1 < c.nNodes) (hlt : x.runs < x.calls) :
    RankOk j r { x with gpe := .isendCtrl, runs := x.runs + 1 } flight := by
  have hcalls := h.calls_le hN
  have heq : x.runs + 1 = x.calls := by omega
  have hposts : Rank.posts c { x with gpe := .isendCtrl, runs := x.runs + 1 } = x.posts c := by
    rw [posts_of_lt hlt]
    exact posts_of_eq heq
  exact
    { __ := h
      gpe := trivial
      single := fun hone => absurd hone hN.ne'
      unstarted := fun hzero => absurd hzero (Nat.succ_ne_zero _)
      runs_le := heq.le
      calls_le := fun _ => Nat.le_succ_of_le heq.ge
      late := fun hlt' => absurd heq hlt'.ne
      seen := by
        rw [hposts]
        exact h.seen
      flag := by
        rw [hposts]
        exact h.flag
      flying := ⟨0, le_rfl, by rw [(h.late hlt).1]; rfl⟩ }

theorem runs_of_gpe (hidle : x.gpe ≠ .idle) (hwait : x.gpe ≠ .waitPuts) : x.runs = x.calls := by
  have hle := h.runs_le
  by_contra hne
  rcases (h.late (by omega)).2 with heq | heq
  · exact hidle heq
  · exact hwait heq

theorem runs_pos (hidle : x.gpe ≠ .idle) : 0 < x.runs := by
  by_contra hzero
  exact hidle (h.unstarted (by omega))

theorem not_reset (hruns : x.runs = x.calls) (hpos : 0 < x.runs)
    (hlt : x.gpe.posted c < c.nNodes - 1) : x.stream.reset c = false := by
  by_contra hreset
  have hseen := h.seen (by omega)
  rw [StreamPc.seen_of_reset (Bool.eq_true_of_not_eq_false hreset), posts_of_eq hruns] at hseen
  omega

theorem moveGpe {pc : GpePc} {flight' : List Put}
    (hruns : x.runs = x.calls) (hpos : 0 < x.runs) (hvalid : pc.Valid c)
    (hposted : x.gpe.posted c ≤ pc.posted c)
    (hflag : 1 < c.nLocalRanks → f = if x.stream.reset c then -1 else (pc.posted c : ℤ) - 1)
    (hflying : ∃ m ≤ pc.issued c,
      flight' = (List.range' m (pc.issued c - m)).map (j.put (x.runs - 1) r)) :
    RankOk j r { x with gpe := pc, postFlag := f } flight' := by
  have hposts : Rank.posts c { x with gpe := pc, postFlag := f } = pc.posted c := posts_of_eq hruns
  exact
    { __ := h
      gpe := hvalid
      unstarted := fun hzero => absurd hzero hpos.ne'
      late := fun hlt => absurd hruns hlt.ne
      seen := by
        intro hcalls
        rw [hposts]
        have hold := h.seen hcalls
        rw [posts_of_eq hruns] at hold
        exact hold.trans hposted
      flag := by
        rw [hposts]
        exact hflag
      flying := hflying }

end

theorem finishGpe (h : RankOk j r x []) (hpc : x.gpe = .waitPuts) :
    RankOk j r { x with gpe := .idle } [] := by
  have hposts : Rank.posts c { x with gpe := .idle } = x.posts c := by
    simp only [Rank.posts, hpc, GpePc.posted]
  exact
    { __ := h
      gpe := trivial
      unstarted := fun _ => rfl
      late := fun _ => ⟨rfl, Or.inl rfl⟩
      seen := by
        rw [hposts]
        exact h.seen
      flag := by
        rw [hposts]
        exact h.flag
      flying := ⟨c.nNodes - 1, le_rfl, by simp [GpePc.issued]⟩ }

theorem arrive {q : Put} {rest : List Put} (h : RankOk j r x (q :: rest)) :
    RankOk j r x rest ∧
      q = j.put (x.runs - 1) r (x.gpe.issued c - (rest.length + 1)) := by
  rcases h.flying with ⟨m, hm, hflight⟩
  have hlen := congrArg List.length hflight
  rw [List.length_map, List.length_range', List.length_cons] at hlen
  obtain ⟨n, hn⟩ : ∃ n, x.gpe.issued c - m = n + 1 := ⟨rest.length, by omega⟩
  rw [hn, List.range'_succ, List.map_cons, List.cons.injEq] at hflight
  have hrest : x.gpe.issued c - (m + 1) = n := by omega
  constructor
  · exact
      { h with
        late := by
          intro hlt
          exact absurd (h.late hlt).1 (List.cons_ne_nil _ _)
        flying := by
          refine ⟨m + 1, by omega, ?_⟩
          rw [hrest]
          exact hflight.2 }
  · rw [hflight.1]
    congr 1
    omega

end RankOk

/-! ### Ranks against each other -/

section Pairs

variable {rank : ℕ → Rank} {ready notified : ℕ → ℕ} {flight : ℕ → List Put} {a r : ℕ} {x : Rank}

theorem update_apply_eq (rank : ℕ → Rank) {γ : Type*} {f : Rank → γ} (h : f x = f (rank a)) (r : ℕ) :
    f (Function.update rank a x r) = f (rank r) := by
  by_cases hra : r = a
  · rw [hra, Function.update_self, h]
  · rw [Function.update_of_ne hra]

theorem update_apply_add (rank : ℕ → Rank) {f : Rank → ℕ} {i : ℕ} (h : f x = f (rank a) + i) (r : ℕ) :
    f (Function.update rank a x r) = f (rank r) + if r = a then i else 0 := by
  by_cases hra : r = a
  · rw [hra, Function.update_self, h, if_pos rfl]
  · rw [Function.update_of_ne hra, if_neg hra, Nat.add_zero]

/-- No rank is more than one barrier ahead of another one of its node. -/
def Abreast (c : Config) (rank : ℕ → Rank) : Prop :=
  ∀ a < c.nRanks, ∀ b < c.nRanks, c.SameNode a b →
    (rank a).arrived ≤ (rank b).arrived + (rank a).stream.awaiting

theorem Abreast.update (h : Abreast c rank) (ha : a < c.nRanks)
    (hmono : (rank a).arrived ≤ x.arrived)
    (hx : ∀ b < c.nRanks, c.SameNode a b → x.arrived ≤ (rank b).arrived + x.stream.awaiting) :
    Abreast c (Function.update rank a x) := by
  intro a' ha' b hb hnode
  by_cases hb' : b = a
  · subst hb'
    rw [Function.update_self]
    by_cases hab : a' = b
    · rw [hab, Function.update_self]
      exact Nat.le_add_right _ _
    · rw [Function.update_of_ne hab]
      exact (h a' ha' b hb hnode).trans (Nat.add_le_add_right hmono _)
  · rw [Function.update_of_ne hb']
    by_cases hab : a' = a
    · subst hab
      rw [Function.update_self]
      exact hx b hb hnode
    · rw [Function.update_of_ne hab]
      exact h a' ha' b hb hnode

theorem Abreast.move (h : Abreast c rank) (ha : a < c.nRanks)
    (harrived : x.arrived = (rank a).arrived)
    (hawaiting : (rank a).stream.awaiting ≤ x.stream.awaiting) :
    Abreast c (Function.update rank a x) := by
  apply h.update ha harrived.ge
  intro b hb hnode
  rw [harrived]
  exact (h a ha b hb hnode).trans (Nat.add_le_add_left hawaiting _)

/-- What a thread has issued in all its runs, and one run more. -/
def Rank.sent (c : Config) (x : Rank) : ℕ := x.runs * (c.nNodes - 1) + x.gpe.issued c

def Rank.taken (c : Config) (x : Rank) : ℕ := x.runs * (c.nNodes - 1) + x.gpe.consumed c

/-- The puts from a rank to its lower neighbour, and the control messages the other way. -/
structure Linked (c : Config) (x y : Rank) (ready notified : ℕ) (flight : List Put) : Prop where
  puts : x.sent c = y.taken c + notified + flight.length
  ctrl : y.runs + x.gpe.untaken = x.runs + ready + y.gpe.unsent

def Links (c : Config) (rank : ℕ → Rank) (ready notified : ℕ → ℕ) (flight : ℕ → List Put) : Prop :=
  ∀ r < c.nRanks, Linked c (rank r) (rank (c.downPeer r)) (ready r) (notified (c.downPeer r))
    (flight r)

section

variable (h : Links c rank ready notified flight)
include h

variable {ready' notified' : ℕ → ℕ} {flight' : ℕ → List Put} {i k t : ℕ}

/-- A thread issues `i` puts, takes `k` notifications and `t` control messages. -/
theorem Links.step
    (hsent : x.sent c = (rank a).sent c + i) (htaken : x.taken c = (rank a).taken c + k)
    (hctrl : x.runs + (rank a).gpe.untaken = (rank a).runs + x.gpe.untaken + t)
    (hctrl' : x.runs + (rank a).gpe.unsent = (rank a).runs + x.gpe.unsent)
    (hready : ∀ r, ready' r + (if r = a then t else 0) = ready r)
    (hnotified : ∀ r, notified' r + (if r = a then k else 0) = notified r)
    (hflight : ∀ r, (flight' r).length = (flight r).length + if r = a then i else 0) :
    Links c (Function.update rank a x) ready' notified' flight' := by
  intro r hr
  rcases h r hr with ⟨hputs, hold⟩
  have hreadyr := hready r
  have hnotifiedr := hnotified (c.downPeer r)
  have hflightr := hflight r
  constructor
  · have hs := update_apply_add rank (f := Rank.sent c) hsent r
    have ht := update_apply_add rank (f := Rank.taken c) htaken (c.downPeer r)
    omega
  · have hs : (Function.update rank a x r).runs + (rank r).gpe.untaken =
        (rank r).runs + (Function.update rank a x r).gpe.untaken + if r = a then t else 0 := by
      by_cases hra : r = a
      · rw [hra, Function.update_self, if_pos rfl, hctrl]
      · rw [Function.update_of_ne hra, if_neg hra, Nat.add_zero]
    have ht : (Function.update rank a x (c.downPeer r)).runs + (rank (c.downPeer r)).gpe.unsent =
        (rank (c.downPeer r)).runs +
          (Function.update rank a x (c.downPeer r)).gpe.unsent := by
      by_cases hda : c.downPeer r = a
      · rw [hda, Function.update_self, hctrl']
      · rw [Function.update_of_ne hda]
    omega

theorem Links.move
    (hsent : x.sent c = (rank a).sent c) (htaken : x.taken c = (rank a).taken c)
    (hctrl : x.runs + (rank a).gpe.untaken = (rank a).runs + x.gpe.untaken)
    (hctrl' : x.runs + (rank a).gpe.unsent = (rank a).runs + x.gpe.unsent) :
    Links c (Function.update rank a x) ready notified flight :=
  h.step (i := 0) (k := 0) (t := 0) hsent htaken hctrl hctrl' (by simp) (by simp) (by simp)

/-- The thread of `a` goes from `pc₀` to `pc` within a run. -/
theorem Links.gpe {pc₀ pc : GpePc} {f : ℤ} (hpc : (rank a).gpe = pc₀)
    (hissued : pc.issued c = pc₀.issued c + i) (hconsumed : pc.consumed c = pc₀.consumed c + k)
    (huntaken : pc₀.untaken = pc.untaken + t) (hunsent : pc₀.unsent = pc.unsent)
    (hready : ∀ r, ready' r + (if r = a then t else 0) = ready r)
    (hnotified : ∀ r, notified' r + (if r = a then k else 0) = notified r)
    (hflight : ∀ r, (flight' r).length = (flight r).length + if r = a then i else 0) :
    Links c (Function.update rank a { rank a with gpe := pc, postFlag := f }) ready' notified'
      flight' := by
  subst hpc
  apply h.step _ _ _ _ hready hnotified hflight
  · simp only [Rank.sent, hissued, Nat.add_assoc]
  · simp only [Rank.taken, hconsumed, Nat.add_assoc]
  · simp only [huntaken, Nat.add_assoc]
  · simp only [hunsent]

theorem Links.isendCtrl (ha : a < c.nRanks) (hpc : (rank a).gpe = .isendCtrl) :
    Links c (Function.update rank a { rank a with gpe := .irecvCtrl })
      (Function.update ready (c.upPeer a) (ready (c.upPeer a) + 1)) notified flight := by
  intro r hr
  rcases h r hr with ⟨hputs, hold⟩
  have hiff := Config.downPeer_eq_iff hr ha
  constructor
  · rw [update_apply_eq rank (f := Rank.sent c), update_apply_eq rank (f := Rank.taken c)]
    · exact hputs
    · simp only [Rank.taken, hpc, GpePc.consumed]
    · simp only [Rank.sent, hpc, GpePc.issued]
  · have hruns := update_apply_eq rank (f := Rank.runs)
      (show ({ rank a with gpe := .irecvCtrl } : Rank).runs = (rank a).runs from rfl)
    have huntaken := update_apply_eq rank (f := fun x => x.gpe.untaken)
      (show ({ rank a with gpe := .irecvCtrl } : Rank).gpe.untaken = (rank a).gpe.untaken by
        rw [hpc]; rfl) r
    simp only at huntaken
    rw [hruns, hruns, huntaken]
    by_cases hdown : c.downPeer r = a
    · rw [hdown, Function.update_self, ← hiff.mp hdown, Function.update_self]
      rw [hdown, hpc] at hold
      simp only [GpePc.unsent] at hold ⊢
      omega
    · rw [Function.update_of_ne hdown, Function.update_of_ne (fun hup => hdown (hiff.mpr hup))]
      exact hold

theorem Links.deliver (ha : a < c.nRanks) {q : Put}
    {rest : List Put} (hflight : flight a = q :: rest) :
    Links c rank ready
      (Function.update notified (c.downPeer a) (notified (c.downPeer a) + 1))
      (Function.update flight a rest) := by
  intro r hr
  rcases h r hr with ⟨hputs, hctrl⟩
  refine ⟨?_, hctrl⟩
  have hiff : c.downPeer r = c.downPeer a ↔ r = a := by
    rw [Config.downPeer_eq_iff hr (Config.downPeer_lt a), Config.upPeer_downPeer ha]
  simp only [Function.update_apply, hiff]
  by_cases hra : r = a
  · subst hra
    rw [if_pos rfl, if_pos rfl]
    rw [hflight, List.length_cons] at hputs
    omega
  · rw [if_neg hra, if_neg hra]
    exact hputs

end

/-! ### The invariant -/

structure Sync (j : Calls c β) (rank : ℕ → Rank) (ready notified : ℕ → ℕ) (flight : ℕ → List Put) :
    Prop where
  ranks : ∀ r < c.nRanks, RankOk j r (rank r) (flight r)
  abreast : Abreast c rank
  links : Links c rank ready notified flight

namespace Sync

variable {j : Calls c β} {b round p : ℕ}

theorem initial (j : Calls c β) : Sync j (fun _ => {}) (fun _ => 0) (fun _ => 0) fun _ => [] where
  ranks := fun _ _ =>
    { stream := trivial
      gpe := trivial
      inside := fun hne => absurd rfl hne
      single := fun _ => rfl
      unstarted := fun _ => rfl
      runs_le := le_rfl
      calls_le := fun _ => Nat.zero_le _
      late := fun hlt => absurd hlt (Nat.lt_irrefl _)
      seen := fun hlt => absurd hlt (Nat.lt_irrefl _)
      flag := fun _ => rfl
      flying := ⟨c.nNodes - 1, le_rfl, by simp [GpePc.issued]⟩
      arrived := fun _ => (Nat.zero_mul _).symm }
  abreast := fun _ _ _ _ _ => Nat.zero_le _
  links := fun _ _ => ⟨rfl, rfl⟩

section

variable (h : Sync j rank ready notified flight)
include h

theorem stream (hok : RankOk j a x (flight a))
    (hgpe : x.gpe = (rank a).gpe) (hruns : x.runs = (rank a).runs)
    (habreast : Abreast c (Function.update rank a x)) :
    Sync j (Function.update rank a x) ready notified flight where
  ranks := by
    intro r hr
    by_cases hra : r = a
    · rw [hra, Function.update_self]
      exact hok
    · rw [Function.update_of_ne hra]
      exact h.ranks r hr
  abreast := habreast
  links := by
    apply h.links.move
    · rw [Rank.sent, Rank.sent, hgpe, hruns]
    · rw [Rank.taken, Rank.taken, hgpe, hruns]
    · rw [hgpe, hruns]
    · rw [hgpe, hruns]

theorem gpe (ha : a < c.nRanks)
    {ready' notified' : ℕ → ℕ} {flight' : ℕ → List Put} (hok : RankOk j a x (flight' a))
    (hstream : x.stream = (rank a).stream) (harrived : x.arrived = (rank a).arrived)
    (hflight : ∀ r, r ≠ a → flight' r = flight r)
    (hlinks : Links c (Function.update rank a x) ready' notified' flight') :
    Sync j (Function.update rank a x) ready' notified' flight' where
  ranks := by
    intro r hr
    by_cases hra : r = a
    · rw [hra, Function.update_self]
      exact hok
    · rw [Function.update_of_ne hra, hflight r hra]
      exact h.ranks r hr
  abreast := h.abreast.move ha harrived (by rw [hstream])
  links := hlinks

variable {rest : List Put} {q : Put}

section

variable (ha : a < c.nRanks)
include ha

theorem deliver (hflight : flight a = q :: rest) :
    Sync j rank ready (Function.update notified (c.downPeer a) (notified (c.downPeer a) + 1))
      (Function.update flight a rest) where
  ranks := by
    intro r hr
    by_cases hra : r = a
    · have hok := h.ranks a ha
      rw [hflight] at hok
      rw [hra, Function.update_self]
      exact hok.arrive.1
    · rw [Function.update_of_ne hra]
      exact h.ranks r hr
  abreast := h.abreast
  links := h.links.deliver ha hflight

/-! ### Ranks of one node -/

section

variable (hb : b < c.nRanks) (hnode : c.SameNode a b)
include hb hnode

theorem ahead_of_lt
    (hL : 1 < c.nLocalRanks) (hlt : (rank b).calls < (rank a).calls) :
    c.nNodes + 1 + (rank b).stream.ahead c ≤
      (rank a).stream.ahead c + (rank a).stream.awaiting := by
  have hle := h.abreast a ha b hb hnode
  have hra := (h.ranks a ha).arrived hL
  have hrb := (h.ranks b hb).arrived hL
  have hmul := Nat.mul_le_mul_right (c.nNodes + 1) hlt
  rw [Nat.succ_mul] at hmul
  omega

theorem calls_le_succ
    (hL : 1 < c.nLocalRanks) : (rank a).calls ≤ (rank b).calls + 1 := by
  have hle := h.abreast a ha b hb hnode
  have hra := (h.ranks a ha).arrived hL
  have hrb := (h.ranks b hb).arrived hL
  have hahead := (h.ranks a ha).stream.ahead_le
  apply Nat.le_of_mul_le_mul_right (c := c.nNodes + 1) _ (Nat.succ_pos _)
  rw [Nat.succ_mul]
  omega

theorem calls_of_copy
    (hpc : (rank a).stream = .copy round p) : (rank b).calls = (rank a).calls := by
  have hvalid := (h.ranks a ha).stream
  rw [hpc] at hvalid
  rcases hvalid with ⟨hL, hround, _, _⟩
  rcases Nat.lt_trichotomy (rank b).calls (rank a).calls with hlt | heq | hgt
  · have hahead := h.ahead_of_lt ha hb hnode hL hlt
    rw [hpc] at hahead
    simp only [StreamPc.ahead, StreamPc.awaiting] at hahead
    omega
  · exact heq
  · have hahead := h.ahead_of_lt hb ha hnode.symm hL hgt
    have hle := (h.ranks b hb).stream.ahead_le
    have hcopy : StreamPc.ahead c (.copy round p) = c.nNodes - round := rfl
    rw [hpc, hcopy] at hahead
    omega

/-- When a rank is done with an execution, so are the copies of its node. -/
theorem sent_of_idle
    (hL : 1 < c.nLocalRanks) (hidle : (rank b).stream = .idle) (hround : round < c.nNodes) :
    (rank b).calls < (rank a).calls ∨
      (rank b).calls = (rank a).calls ∧ (rank a).stream.Sent round p := by
  rcases Nat.lt_trichotomy (rank b).calls (rank a).calls with hlt | heq | hgt
  · exact Or.inl hlt
  · have hle := h.abreast b hb a ha hnode.symm
    have hra := (h.ranks a ha).arrived hL
    have hrb := (h.ranks b hb).arrived hL
    rw [hidle, heq] at hrb
    rw [hidle] at hle
    simp only [StreamPc.ahead, StreamPc.awaiting] at hrb hle
    exact Or.inr ⟨heq, (h.ranks a ha).stream.sent_of_ahead (by omega) hround⟩
  · have hahead := h.ahead_of_lt hb ha hnode.symm hL hgt
    rw [hidle] at hahead
    simp only [StreamPc.ahead, StreamPc.awaiting] at hahead
    omega

end

/-! ### A link -/

/-- While a put is in flight, both ends are in the same execution, and as many puts have arrived as
the notifications that the lower one has had. -/
theorem inFlight (hflight : flight a = q :: rest) :
    (rank a).runs = (rank a).calls ∧ (rank (c.downPeer a)).runs = (rank (c.downPeer a)).calls ∧
      (rank (c.downPeer a)).runs = (rank a).runs ∧
      (rank a).gpe.issued c - (rest.length + 1) =
        (rank (c.downPeer a)).gpe.consumed c + notified (c.downPeer a) := by
  have hok := h.ranks a ha
  have hdown := h.ranks (c.downPeer a) (Config.downPeer_lt a)
  have hlen := hok.length_le
  have hissued := hok.gpe.issued_le
  rcases h.links a ha with ⟨hputs, hctrl⟩
  rw [hflight, List.length_cons] at hputs hlen
  have hruns : (rank a).runs = (rank a).calls := by
    have hle := hok.runs_le
    by_contra hne
    have hnil := (hok.late (by omega)).1
    rw [hflight] at hnil
    cases hnil
  have hsent : (rank a).gpe.untaken = 0 := by
    cases hgpe : (rank a).gpe with
    | isendCtrl | irecvCtrl =>
      rw [hgpe] at hlen
      simp only [GpePc.issued] at hlen
      omega
    | _ => rfl
  have heq : (rank (c.downPeer a)).runs = (rank a).runs := by
    rcases Nat.lt_or_ge (rank a).runs (rank (c.downPeer a)).runs with hlt | hge
    · have hmul := Nat.mul_le_mul_right (c.nNodes - 1) hlt
      rw [Nat.succ_mul] at hmul
      simp only [Rank.sent, Rank.taken] at hputs
      omega
    · omega
  simp only [Rank.sent, Rank.taken, heq] at hputs
  refine ⟨hruns, ?_, heq, by omega⟩
  have hle := hdown.runs_le
  by_contra hne
  have hconsumed : (rank (c.downPeer a)).gpe.consumed c = c.nNodes - 1 := by
    rcases (hdown.late (by omega)).2 with hpc | hpc <;> rw [hpc] <;> rfl
  omega

theorem notified_eq_zero (hpc : (rank a).gpe = .idle) : notified a = 0 := by
  have hup := Config.upPeer_lt ha
  have hissued := (h.ranks _ hup).gpe.issued_le
  rcases h.links _ hup with ⟨hputs, hctrl⟩
  rw [Config.downPeer_upPeer ha] at hputs hctrl
  simp only [Rank.sent, Rank.taken, hpc, GpePc.consumed, GpePc.unsent] at hputs hctrl
  rcases Nat.lt_or_ge (rank a).runs (rank (c.upPeer a)).runs with hlt | hge
  · have huntaken : (rank (c.upPeer a)).gpe.untaken ≤ 1 := by
      cases (rank (c.upPeer a)).gpe <;> simp [GpePc.untaken]
    have hruns : (rank (c.upPeer a)).runs = (rank a).runs + 1 := by omega
    have hzero : (rank (c.upPeer a)).gpe.issued c = 0 := by
      cases hgpe : (rank (c.upPeer a)).gpe with
      | isendCtrl | irecvCtrl => rfl
      | _ =>
        rw [hgpe] at hctrl
        simp only [GpePc.untaken] at hctrl
        omega
    rw [hruns, Nat.succ_mul, hzero] at hputs
    omega
  · have hmul := Nat.mul_le_mul_right (c.nNodes - 1) hge
    omega

end

end

end Sync

end Pairs
end TorchComms.Algos.AllGatherP
